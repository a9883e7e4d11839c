import Apue.DbReopen
import Apue.DbSettled

/-!
A scan with other calls on the same handle in between. db_nextrec reads on from
the offset of the index descriptor, and every search on a chain and every write
of the other calls moves it. A scan that finds it where it was left, or apart from
there by deleted records only, returns every record that stays once.
-/
namespace Apue.Db

open Programs Decimal ByteFiles Pointers Threads

variable {fuel : ℕ} {st : Store} {key data : List Byte} {l rest : List ℕ} {o : ℕ}

/-- The answers of db_nextrec before the first null. -/
def untilNull {α : Type} : List (Option α) → List α
  | [] => []
  | none :: _ => []
  | some a :: rs => a :: untilNull rs

theorem untilNull_concat {α : Type} [DecidableEq α] (rs : List (Option α)) (r : Option α) :
    untilNull (rs ++ [r]) = if none ∈ rs then untilNull rs else untilNull rs ++ r.toList := by
  induction rs with
  | nil => cases r <;> rfl
  | cons a rs ih =>
    cases a with
    | none => rfl
    | some a =>
      rw [List.cons_append, untilNull, ih, untilNull]
      by_cases hn : none ∈ rs
      · rw [if_pos hn, if_pos (List.mem_cons_of_mem _ hn)]
      · have hn' : none ∉ some a :: rs := fun hm => hn ((List.mem_cons.mp hm).resolve_left (by simp))
        rw [if_neg hn, if_neg hn', List.cons_append]

/-- A scan goes on from `y` as it would from `x`: at most deleted records lie between
the two offsets of the index file. -/
def SamePlace (files : Files) (x y : ℕ) : Prop :=
  ∀ st chain free l, LayoutOf files st chain free → st.Ahead x l →
    ∃ l', st.Ahead y l' ∧ st.live l' = st.live l

/-- A scan on one handle with calls of db_fetch in between, and of db_delete for keys
that it has returned. `x` is the offset at which the last db_rewind or db_nextrec
left the index descriptor, and `rs` are the answers of db_nextrec so far. Every
db_nextrec finds the descriptor where `place` allows it. -/
inductive Scans (fuel : ℕ) (place : Files → ℕ → ℕ → Prop) (db₀ : DB) (s₀ : Files × Pos) :
    DB → Files × Pos → ℕ → List (Option (List Byte × List Byte)) → Prop
  | rewind {db : DB} {s : Files × Pos} (hrun : (dbRewind db₀).run fileCall s₀ = (.ok db, s)) :
    Scans fuel place db₀ s₀ db s s.2.idx []
  | nextrec {db db' : DB} {s s' : Files × Pos} {x : ℕ} {rs : List (Option (List Byte × List Byte))}
    {r : Option (List Byte × List Byte)} (h : Scans fuel place db₀ s₀ db s x rs)
    (hplace : place s.1 x s.2.idx) (hrun : (dbNextrec fuel db).run fileCall s = (.ok (db', r), s')) :
    Scans fuel place db₀ s₀ db' s' s'.2.idx (rs ++ [r])
  | fetch {db db' : DB} {s s' : Files × Pos} {x : ℕ} {rs : List (Option (List Byte × List Byte))}
    {key : List Byte} {v : Option (List Byte)} (h : Scans fuel place db₀ s₀ db s x rs)
    (hrun : (dbFetch fuel db key).run fileCall s = (.ok (db', v), s')) :
    Scans fuel place db₀ s₀ db' s' x rs
  | delete {db db' : DB} {s s' : Files × Pos} {x : ℕ} {rs : List (Option (List Byte × List Byte))}
    {key data : List Byte} {rc : ℤ} (h : Scans fuel place db₀ s₀ db s x rs)
    (hret : some (key, data) ∈ rs)
    (hrun : (dbDelete fuel db key).run fileCall s = (.ok (db', rc), s')) :
    Scans fuel place db₀ s₀ db' s' x rs

/-- The scan of the database survives: db_nextrec is never stopped, and its answers up
to the first null are every record that stays, once. -/
def Survives (fuel : ℕ) (place : Files → ℕ → ℕ → Prop) (db₀ : DB) (s₀ : Files × Pos) : Prop :=
  ∀ db s x rs, Scans fuel place db₀ s₀ db s x rs →
    (place s.1 x s.2.idx → ∃ v s', (dbNextrec fuel db).run fileCall s = (.ok v, s')) ∧
    (none ∈ rs → ∀ key data, Binding fuel s.1 key data → (untilNull rs).count (key, data) = 1)

/-- With the records `l` ahead, every other record that has a key was returned once. -/
structure Store.Returned (st : Store) (l : List ℕ) (rs : List (Option (List Byte × List Byte))) :
    Prop where
  ahead : none ∉ rs → ∀ o ∈ st.live l, (untilNull rs).count (st.pair o) = 0
  passed : ∀ o ∈ st.live st.offs, none ∈ rs ∨ o ∉ st.live l → (untilNull rs).count (st.pair o) = 1

section Steps

variable {chain : ℕ → List ℕ} {free pre : List ℕ} {rs : List (Option (List Byte × List Byte))}
variable (h : Resting st.files st chain free)
include h

/-- One db_nextrec. -/
theorem Resting.returned_nextrec (hret : st.Returned l rs) {l' : List ℕ} {x : ℕ}
    (hl' : st.Ahead x l') (hlive : st.live l' = st.live l)
    (hrest : st.live rest = (st.live l').tail) :
    st.Returned rest (rs ++ [(st.live l').head?.map st.pair]) := by
  obtain ⟨pre, hoffs, -⟩ := hl'
  have hsub : ∀ b ∈ st.live l', b ∈ st.live st.offs := fun b hb => by
    obtain ⟨hb, hblank⟩ := Store.mem_live.mp hb
    exact Store.mem_live.mpr ⟨hoffs ▸ List.mem_append_right _ hb, hblank⟩
  have hnodup : (st.live l').Nodup := by
    have hn := h.ok.nodup_offs
    rw [hoffs] at hn
    exact (List.nodup_append.mp hn).2.1.filter _
  obtain ⟨hahead, hpassed⟩ := hret
  rw [← hlive] at hahead hpassed
  have hinj : ∀ a ∈ st.live st.offs, ∀ b ∈ st.live st.offs, st.pair a = st.pair b → a = b :=
    fun a ha b hb he => h.key_injective a (Store.mem_live.mp ha).1 b (Store.mem_live.mp hb).1
      (Store.mem_live.mp ha).2 (congrArg Prod.fst he)
  by_cases hnull : none ∈ rs
  · refine ⟨fun hn => absurd (List.mem_append_left _ hnull) hn, fun a ha _ => ?_⟩
    rw [untilNull_concat, if_pos hnull]
    exact hpassed a ha (Or.inl hnull)
  · cases hl : st.live l' with
    | nil =>
      refine ⟨fun hn => absurd (List.mem_append_right _ List.mem_cons_self) hn, fun a ha _ => ?_⟩
      rw [untilNull_concat, if_neg hnull]
      refine (congrArg _ (List.append_nil _)).trans (hpassed a ha (Or.inr ?_))
      rw [hl]
      exact List.not_mem_nil
    | cons b tail =>
      rw [hl] at hrest hsub hnodup hahead hpassed
      obtain ⟨hb, -⟩ := List.nodup_cons.mp hnodup
      have hbmem := hsub b List.mem_cons_self
      have hnone : none ∉ rs ++ [some (st.pair b)] := fun hm =>
        (List.mem_append.mp hm).elim hnull (by simp)
      have hcount : ∀ a, (untilNull (rs ++ [some (st.pair b)])).count (st.pair a) =
          (untilNull rs).count (st.pair a) + [st.pair b].count (st.pair a) := fun a => by
        rw [untilNull_concat, if_neg hnull, List.count_append]
        rfl
      have hother : ∀ a ∈ st.live st.offs, a ≠ b → [st.pair b].count (st.pair a) = 0 :=
        fun a ha hab => List.count_eq_zero.mpr fun hm =>
          hab (hinj a ha b hbmem (List.mem_singleton.mp hm))
      refine ⟨fun _ a ha => ?_, fun a ha hor => ?_⟩
      · rw [hrest, List.tail_cons] at ha
        have hab : a ≠ b := ne_of_mem_of_not_mem ha hb
        refine (hcount a).trans ?_
        rw [hahead hnull a (List.mem_cons_of_mem _ ha),
          hother a (hsub a (List.mem_cons_of_mem _ ha)) hab]
      · rw [hrest, List.tail_cons] at hor
        refine (hcount a).trans ?_
        by_cases hab : a = b
        · rw [hab, hahead hnull b List.mem_cons_self, List.count_singleton_self]
        · have hout : a ∉ b :: tail := fun hm =>
            (hor.resolve_left hnone) ((List.mem_cons.mp hm).resolve_left hab)
          rw [hpassed a ha (Or.inr hout), hother a ha hab]

omit h in
/-- A deletion takes one record from those that have a key. -/
theorem mem_live_unlinked (c a : ℕ) (m : List ℕ) :
    a ∈ (st.unlinked o c).live m ↔ a ∈ st.live m ∧ a ≠ o := by
  rw [Store.mem_live, Store.mem_live]
  by_cases hao : a = o
  · have hself : (st.unlinked o c).body o =
        (st.body o).rekey (List.replicate (st.body o).key.length SPACE) := Function.update_self ..
    rw [hao, hself]
    refine iff_of_false (fun hc => hc.2 ?_) fun hc => hc.2 rfl
    exact fun x hx => List.eq_of_mem_replicate hx
  · have hbody : (st.unlinked o c).body a = st.body a := Function.update_of_ne hao ..
    rw [hbody]
    exact (and_iff_left hao).symm

variable (hchain : chain (hashOf key) = pre ++ o :: rest)
include hchain

theorem Resting.pair_unlinked (c : ℕ) {a : ℕ} (ha : a ∈ st.offs) (hne : a ≠ o) :
    (st.unlinked o c).pair a = st.pair a := by
  have hbody : (st.unlinked o c).body a = st.body a := Function.update_of_ne hne ..
  rw [Store.pair, hbody, Store.pair]
  exact congrArg _ (h.dat_dataWiped hchain ha hne)

/-- The records keep their places in the index file. -/
theorem Resting.ahead_unlinked (c : ℕ) {x : ℕ} (hx : st.Ahead x l) :
    (st.unlinked o c).Ahead x l := by
  have ho := h.mem_of_chain hchain
  have hok := h.ok.unlinked ho (h.data o ho) (h.off_le ho) c
  obtain ⟨m, hoffs, hend⟩ := hx
  refine ⟨m, hoffs, hend.trans (endOf_congr fun a ha => ?_)⟩
  have hmem : a ∈ st.offs := hoffs ▸ List.mem_append_left _ ha
  rw [hok.length_recBlock hmem, h.ok.length_recBlock hmem]
  by_cases hao : a = o
  · have hself : (st.unlinked o c).body o =
        (st.body o).rekey (List.replicate (st.body o).key.length SPACE) := Function.update_self ..
    rw [hao, hself, Body.length_text_rekey _ List.length_replicate]
  · have hbody : (st.unlinked o c).body a = st.body a := Function.update_of_ne hao ..
    rw [hbody]

theorem Resting.returned_unlinked (c : ℕ) (hl : ∀ a ∈ l, a ∈ st.offs) (hret : st.Returned l rs) :
    (st.unlinked o c).Returned l rs := by
  refine ⟨fun hn a ha => ?_, fun a ha hor => ?_⟩
  · obtain ⟨ha, hne⟩ := (mem_live_unlinked c a l).mp ha
    rw [h.pair_unlinked hchain c (hl a (Store.mem_live.mp ha).1) hne]
    exact hret.ahead hn a ha
  · obtain ⟨ha, hne⟩ := (mem_live_unlinked c a st.offs).mp ha
    rw [h.pair_unlinked hchain c (Store.mem_live.mp ha).1 hne]
    refine hret.passed a ha (hor.imp_right fun hout hm => hout ?_)
    exact (mem_live_unlinked c a l).mpr ⟨hm, hne⟩

end Steps

/-- The state of a scan: the records ahead of the offset where it stands, and those
that it has returned. -/
def Scanned (db : DB) (files : Files) (x : ℕ) (rs : List (Option (List Byte × List Byte))) :
    Prop :=
  db.Opened ∧ ∃ st chain free l, files = st.files ∧ Resting st.files st chain free ∧
    st.Ahead x l ∧ st.Returned l rs

theorem Store.Ahead.mem_offs {x : ℕ} (hx : st.Ahead x l) (ho : o ∈ l) : o ∈ st.offs := by
  obtain ⟨pre, hoffs, -⟩ := hx
  exact hoffs ▸ List.mem_append_right _ ho

theorem Store.Ahead.length_le {x : ℕ} (hx : st.Ahead x l) : l.length ≤ st.offs.length := by
  obtain ⟨pre, hoffs, -⟩ := hx
  rw [hoffs, List.length_append]
  exact Nat.le_add_left _ _

section Run

variable (hfuel : PTR_MAX < fuel) {db : DB} {s : Files × Pos} {x : ℕ}
variable {rs : List (Option (List Byte × List Byte))}
include hfuel

theorem Scanned.nextrec (h : Scanned db s.1 x rs) (hplace : SamePlace s.1 x s.2.idx) :
    ∃ db' r s', (dbNextrec fuel db).run fileCall s = (.ok (db', r), s') ∧
      Scanned db' s'.1 s'.2.idx (rs ++ [r]) := by
  obtain ⟨hdb, st, chain, free, l, hfiles, hrest, hahead, hret⟩ := h
  obtain ⟨files, pos⟩ := s
  obtain rfl := hfiles
  obtain ⟨l', hahead', hlive⟩ := hplace st chain free l hrest.toLayoutOf hahead
  have hsize := lt_of_le_of_lt hahead'.length_le (hrest.length_offs_lt hfuel)
  obtain ⟨db', pos', rest, hruns, hsame, hnext, htail, -⟩ :=
    runs_nextrec hrest.ok hsize hrest.data_live db hahead'
  refine ⟨db', _, (st.files, pos'), hruns.run, hdb.of_sameChain hsame, st, chain, free, rest, rfl,
    hrest, hnext, ?_⟩
  exact hrest.returned_nextrec hret hahead' hlive htail

theorem Scanned.fetch (h : Scanned db s.1 x rs) {db' : DB} {s' : Files × Pos} {key : List Byte}
    {v : Option (List Byte)} (hrun : (dbFetch fuel db key).run fileCall s = (.ok (db', v), s')) :
    Scanned db' s'.1 x rs := by
  obtain ⟨hdb, st, chain, free, l, hfiles, hrest, hahead, hret⟩ := h
  obtain ⟨files, pos⟩ := s
  obtain rfl := hfiles
  obtain ⟨db₁, hdb₁, -, pos₁, hruns⟩ := goes_fetch hfuel hrest.ok hdb (hrest.searched key) pos
  obtain ⟨he, rfl⟩ := Prod.mk.inj (hruns.run.symm.trans hrun)
  obtain ⟨rfl, -⟩ := Prod.mk.inj (Outcome.ok.inj he)
  exact ⟨hdb₁, st, chain, free, l, rfl, hrest, hahead, hret⟩

theorem Scanned.delete (h : Scanned db s.1 x rs) {db' : DB} {s' : Files × Pos} {key : List Byte}
    {rc : ℤ} (hrun : (dbDelete fuel db key).run fileCall s = (.ok (db', rc), s')) :
    Scanned db' s'.1 x rs := by
  obtain ⟨hdb, st, chain, free, l, hfiles, hrest, hahead, hret⟩ := h
  obtain ⟨files, pos⟩ := s
  obtain rfl := hfiles
  obtain ⟨log, fin, db₁, rc₁, hdel, hdb₁, pos₁, hruns⟩ := goes_delete hrest hfuel hdb key pos
  obtain ⟨he, rfl⟩ := Prod.mk.inj (hruns.run.symm.trans hrun)
  obtain ⟨rfl, -⟩ := Prod.mk.inj (Outcome.ok.inj he)
  cases hdel with
  | missing hmiss => exact ⟨hdb₁, st, chain, free, l, rfl, hrest, hahead, hret⟩
  | removed hchain hkey =>
    exact ⟨hdb₁, _, _, _, l, rfl, hrest.unlinked hchain, hrest.ahead_unlinked hchain _ hahead,
      hrest.returned_unlinked hchain _ (fun _ => hahead.mem_offs) hret⟩

end Run

section Reached

variable {P : Type} [DecidableEq P] {allowed : P → Op → Prop}

end Reached

end Apue.Db
