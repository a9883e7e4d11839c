import Apue.DbFind

/-!
Deletion. _db_dodelete takes the free-list lock on top of the chain lock and
makes four writes: blanks over the data, the record with a blank key and the
old free-list pointer, the new free-list pointer, and the cell before the
record. Between the second and the last of them the chain is broken, which
nobody can see.
-/
namespace Apue.Db

open Programs Decimal ByteFiles Pointers Threads

variable {P : Type} [DecidableEq P] {fuel : ℕ} {allowed : P → Op → Prop} {w₀ : DbWorld P}
variable {p : P} {op : Op} {pos : Pos} {o : KeyOp} {m : Map}

section Writing

variable {w : DbWorld P} (hinv : Inv fuel allowed w)
include hinv

theorem files_setPtr {c v : ℕ} (hc : w.ghost.st.IsCell c) (hv : v ≤ PTR_MAX) :
    w.shared.files.set .idx (writeAt (w.shared.files.get .idx) c (ptrText v)) =
      (w.ghost.st.setPtr c v).files := by
  rw [hinv.files]
  exact congrArg (Files.mk · _) (hinv.records.ok.write_setPtr hv hc)

theorem files_setDat {d : ℕ} {data : List Byte} (hd : d ∈ w.ghost.st.doffs)
    (hlen : data.length = (w.ghost.st.dat d).length) :
    w.shared.files.set .dat (writeAt (w.shared.files.get .dat) d (data ++ [NEWLINE])) =
      (w.ghost.st.setDat d data).files := by
  rw [hinv.files]
  exact congrArg (Files.mk _) (hinv.records.ok.write_setDat hd hlen)

theorem files_setRec {a v : ℕ} {b : Body} (ha : a ∈ w.ghost.st.offs) (hv : v ≤ PTR_MAX)
    (hlen : b.text.length = (w.ghost.st.body a).text.length) :
    w.shared.files.set .idx (writeAt (w.shared.files.get .idx) a (recText v b)) =
      (w.ghost.st.setRec a v b).files := by
  rw [hinv.files]
  exact congrArg (Files.mk · _) (hinv.records.ok.write_setRec ha hv hlen)

end Writing

theorem wp_writeptr {c v : ℕ} (hv : v ≤ PTR_MAX) (hc : w₀.ghost.st.IsCell c)
    {post : Unit → Pos → DbWorld P → Prop}
    (h : ∀ w s, Inv fuel allowed w → Rely p w₀ w → s.files = (w.ghost.st.setPtr c v).files →
      s.locks = w.shared.locks →
      ∃ g, (outline fuel allowed).Moves p w (w.after (.sys p op (.write .idx (ptrText v))) s g) ∧
        ∀ pos', post () pos' (w.after (.sys p op (.write .idx (ptrText v))) s g)) :
    (outline fuel allowed).Wp p op (dbWriteptr c v) pos w₀ post := by
  have hlen := length_ptrText hv
  unfold dbWriteptr
  refine (outline fuel allowed).wp_bind (wp_check (by omega) ?_)
  simp only [decimalInt_natCast]
  refine (outline fuel allowed).wp_bind (wp_seek fun w₁ _ hr₁ => ?_)
  refine (outline fuel allowed).wp_bind (wp_check (by omega) ?_)
  refine (outline fuel allowed).wp_bind (wp_write (ptrText v) ?_)
  intro w s hinv hr hfiles hlocks
  obtain ⟨g, hm, hpost⟩ := h w s hinv (hr₁.trans hr)
    (hfiles.trans (files_setPtr hinv ((hr₁.trans hr).isCell hc) hv)) hlocks
  exact ⟨g, hm, wp_check (by simp [hlen]) (hpost _)⟩

/-- _db_writedat over an existing data record. -/
theorem wp_writedatSet {db : DB} {d : ℕ} {off : ℤ} (hoff : off = d) {data : List Byte}
    {post : DB → Pos → DbWorld P → Prop}
    (h : ∀ w s, Inv fuel allowed w → Rely p w₀ w →
      s.files = w.shared.files.set .dat
        (writeAt (w.shared.files.get .dat) d (data ++ [NEWLINE])) →
      s.locks = w.shared.locks →
      ∃ g, (outline fuel allowed).Moves p w
          (w.after (.sys p op (.write .dat (data ++ [NEWLINE]))) s g) ∧
        ∀ pos', post { db with datoff := d, datlen := data.length + 1 } pos'
          (w.after (.sys p op (.write .dat (data ++ [NEWLINE]))) s g)) :
    (outline fuel allowed).Wp p op (dbWritedat db data off .seekSet) pos w₀ post := by
  subst hoff
  unfold dbWritedat
  refine (outline fuel allowed).wp_bind ?_
  rw [appendLock, if_neg (by decide)]
  refine (outline fuel allowed).wp_bind (wp_seek fun w₁ _ hr₁ => ?_)
  refine (outline fuel allowed).wp_bind (wp_check (by omega) ?_)
  refine (outline fuel allowed).wp_bind (wp_write _ ?_)
  intro w s hinv hr hfiles hlocks
  obtain ⟨g, hm, hpost⟩ := h w s hinv (hr₁.trans hr) hfiles hlocks
  refine ⟨g, hm, (outline fuel allowed).wp_bind (wp_check (by simp) ?_)⟩
  refine (outline fuel allowed).wp_bind ?_
  rw [appendUnlock, if_neg (by decide)]
  exact hpost _

/-- _db_writeidx over an existing index record. -/
theorem wp_writeidxSet {db : DB} {key : List Byte} {a v : ℕ} {b : Body} {off ptr : ℤ}
    (hoff : off = a) (hptr : ptr = v) (hv : v ≤ PTR_MAX) (hb : b.Ok) (hkey : b.key = key)
    (hdatoff : db.datoff = b.datoff) (hdatlen : db.datlen = b.datlen)
    {post : DB → Pos → DbWorld P → Prop}
    (h : ∀ w s, Inv fuel allowed w → Rely p w₀ w →
      s.files = w.shared.files.set .idx (writeAt (w.shared.files.get .idx) a (recText v b)) →
      s.locks = w.shared.locks →
      ∃ g, (outline fuel allowed).Moves p w
          (w.after (.sys p op (.write .idx (recText v b))) s g) ∧
        ∀ pos', post { db with ptrval := v, idxbuf := b.text, idxoff := a } pos'
          (w.after (.sys p op (.write .idx (recText v b))) s g)) :
    (outline fuel allowed).Wp p op (dbWriteidx db key off .seekSet ptr) pos w₀ post := by
  subst hoff hptr hkey
  have htext : idxText b.key db.datoff db.datlen = b.text := by
    rw [hdatoff, hdatlen, Body.text]
  have hmin := hb.min_le
  have hmax := hb.le_max
  have hrec : padLeft PTR_SZ (decimalInt (v : ℤ)) ++ padLeft IDXLEN_SZ (decimal b.text.length) ++
      b.text = recText v b := by
    rw [decimalInt_natCast]
    rfl
  have hlen := length_recText hv hb.le_max
  unfold dbWriteidx dbWriteidxWith
  simp only [htext, hrec, sprintfIdx_unchecked, Prog.ret_bind]
  refine (outline fuel allowed).wp_bind (wp_check (by omega) ?_)
  refine (outline fuel allowed).wp_bind (wp_check (by omega) ?_)
  refine (outline fuel allowed).wp_bind ?_
  rw [appendLock, if_neg (by decide)]
  refine (outline fuel allowed).wp_bind (wp_seek fun w₁ _ hr₁ => ?_)
  refine (outline fuel allowed).wp_bind (wp_check (by omega) ?_)
  refine (outline fuel allowed).wp_bind (wp_write (recText v b) ?_)
  intro w s hinv hr hfiles hlocks
  obtain ⟨g, hm, hpost⟩ := h w s hinv (hr₁.trans hr) hfiles hlocks
  refine ⟨g, hm, (outline fuel allowed).wp_bind (wp_check (by rw [hlen]; push_cast; omega) ?_)⟩
  refine (outline fuel allowed).wp_bind ?_
  rw [appendUnlock, if_neg (by decide)]
  exact hpost _

/-- Nobody is deleting a record when the free list can be locked. -/
theorem idle_of_granted {w : DbWorld P} (hinv : Inv fuel allowed w) {type : LockType}
    (hgranted : Granted w.shared.locks p (.setlkw .idx type FREE_OFF 1))
    (hnone : w.ghost.held p .free = none) : w.ghost.del = .idle := by
  have hg := (granted_region hinv.locks.regional p .free trivial type).mp hgranted
  have hno : ∀ q, w.ghost.held q .free ≠ some .wrlck := by
    intro q hq
    by_cases hqp : q = p
    · subst hqp
      rw [hnone] at hq
      cases hq
    · exact nomatch (hg q hqp _ hq).2
  have hlock := hinv.locks.deleting
  cases hd : w.ghost.del with
  | idle => rfl
  | blanked a =>
    rw [hd] at hlock
    obtain ⟨q, h, hfree, -⟩ := hlock
    exact absurd hfree (hno q)
  | unlinked h x v =>
    rw [hd] at hlock
    obtain ⟨-, -, q, hfree, -⟩ := hlock
    exact absurd hfree (hno q)

theorem wp_lockFree {type : LockType} (hnone : w₀.ghost.held p .free = none)
    {post : ℤ → Pos → DbWorld P → Prop}
    (h : ∀ w s, Inv fuel allowed w → Rely p w₀ w → w.ghost.del = .idle →
      Inv fuel allowed (w.after (.sys p op (.setlkw .idx type FREE_OFF 1)) s
        { w.ghost with held := setHeld w.ghost.held p .free (some type) }) →
      post 0 pos (w.after (.sys p op (.setlkw .idx type FREE_OFF 1)) s
        { w.ghost with held := setHeld w.ghost.held p .free (some type) })) :
    (outline fuel allowed).Wp p op (.call (.setlkw .idx type FREE_OFF 1) .ret) pos w₀ post := by
  refine wp_setlkw fun w s hinv hr hgranted hfiles hlocks => ?_
  have hn : w.ghost.held p .free = none := by
    rw [hr.held]
    exact hnone
  have hmoves := moves_lockOther op hinv (r := .free) trivial rfl hfiles hlocks hgranted hn
  exact ⟨_, hmoves, h w s hinv hr (idle_of_granted hinv hgranted hn) hmoves.1⟩

theorem wp_unlockFree (hidle : w₀.ghost.held p .free = some .wrlck → w₀.ghost.del = .idle)
    {post : ℤ → Pos → DbWorld P → Prop}
    (h : ∀ w s, Inv fuel allowed w → Rely p w₀ w →
      Inv fuel allowed (w.after (.sys p op (.unlck .idx FREE_OFF 1)) s
        { w.ghost with held := setHeld w.ghost.held p .free none }) →
      post 0 pos (w.after (.sys p op (.unlck .idx FREE_OFF 1)) s
        { w.ghost with held := setHeld w.ghost.held p .free none })) :
    (outline fuel allowed).Wp p op (unLock .idx FREE_OFF 1) pos w₀ post := by
  refine wp_unlck fun w s hinv hr hfiles hlocks => ?_
  have hmoves := moves_unlockOther op hinv (r := .free) trivial rfl hfiles hlocks fun hf => by
    rw [hr.held] at hf
    rw [(hr.free (by rw [hf]; nofun)).2]
    exact hidle hf
  exact ⟨_, hmoves, h w s hinv hr hmoves.1⟩

/-- The locks of a process that works on the chain `h` and on one other region. -/
def withLock (h : ℕ) (r : Region) : Held := Function.update (chainLocks h .wrlck) r (some .wrlck)

theorem withLock_self (h : ℕ) (r : Region) : withLock h r r = some .wrlck :=
  Function.update_self _ _ _

theorem withLock_chain (h : ℕ) {r : Region} (hr : r.rank = 1) :
    withLock h r (.chain h) = some .wrlck := by
  have hne : Region.chain h ≠ r := by
    rintro rfl
    simp [Region.rank] at hr
  rw [withLock, Function.update_of_ne hne, chainLocks, Function.update_self]

theorem withLock_release (h : ℕ) {r : Region} (hr : r.rank = 1) :
    Function.update (withLock h r) r none = chainLocks h .wrlck := by
  rw [withLock, Function.update_idem]
  exact Function.update_eq_self_iff.mpr (chainLocks_other hr h .wrlck).symm

/-- The locks of a process that works on the chain `h` and on the free list. -/
abbrev freeLocks (h : ℕ) : Held := withLock h .free

theorem freeLocks_free (h : ℕ) : freeLocks h .free = some .wrlck := withLock_self h .free

theorem freeLocks_chain (h : ℕ) : freeLocks h (.chain h) = some .wrlck := withLock_chain h rfl

/-- In the middle of an operation with the free list locked: the records of the
chain, and how far a deletion has come. -/
structure FreeLocked (p : P) (o : KeyOp) (m : Map) (l : List ℕ) (del : Deletion)
    (w : DbWorld P) : Prop where
  working : Working p o m (freeLocks (hashOf o.key)) w
  chain : w.ghost.chain (hashOf o.key) = l
  del : w.ghost.del = del
  not_made : ∀ d ∈ w.ghost.st.doffs, w.ghost.maker d ≠ some p

namespace FreeLocked

variable {l : List ℕ} {del : Deletion} {w w' : DbWorld P}

theorem free (hf : FreeLocked p o m l del w) : w.ghost.held p .free = some .wrlck := by
  rw [hf.working.held]
  exact freeLocks_free _

theorem wr (hf : FreeLocked p o m l del w) :
    w.ghost.held p (.chain (hashOf o.key)) = some .wrlck := by
  rw [hf.working.held]
  exact freeLocks_chain _

theorem held_ne (hf : FreeLocked p o m l del w) :
    w.ghost.held p (.chain (hashOf o.key)) ≠ none := by
  rw [hf.wr]
  nofun

theorem stable (hf : FreeLocked p o m l del w) (hr : Rely p w w') :
    FreeLocked p o m l del w' where
  working := hf.working.stable hr (by rw [freeLocks_chain]; nofun)
  chain := (hr.chain _ hf.held_ne).1.trans hf.chain
  del := (hr.free (by rw [hf.free]; nofun)).2.trans hf.del
  not_made d hd hm := hf.not_made d ((hr.made d).mp ⟨hd, hm⟩).1 ((hr.made d).mp ⟨hd, hm⟩).2

end FreeLocked

/-- One record as process `p` knows it. -/
structure HasRecord (a : ℕ) (x : Place P) (v : ℕ) (b : Body) (w : DbWorld P) : Prop where
  mem : a ∈ w.ghost.st.offs
  place : w.ghost.place a = x
  ptr : w.ghost.st.ptr a = v
  body : w.ghost.st.body a = b

omit [DecidableEq P] in
theorem HasRecord.stable {a v : ℕ} {x : Place P} {b : Body} {w w' : DbWorld P}
    (h : HasRecord a x v b w) (hr : Rely p w w') (hs : Sees (w.ghost.held p) p x) :
    HasRecord a x v b w' := by
  have hs' : Sees (w.ghost.held p) p (w.ghost.place a) := by
    rw [h.place]
    exact hs
  have hcell := hr.cells a (Or.inr h.mem) hs'
  exact ⟨hr.offs.subset h.mem, hcell.1.trans h.place, hcell.2.trans h.ptr,
    (hr.recs a h.mem hs').1.trans h.body⟩

/-- The records `l` of a chain that is locked hold the part `m` of the map. -/
def Holds (h : ℕ) (l : List ℕ) (m : Map) (w : DbWorld P) : Prop :=
  ∀ key, hashOf key = h → w.ghost.st.lookup l key = m key

theorem Holds.stable {h : ℕ} {l : List ℕ} {w w' : DbWorld P} (hl : Holds h l m w)
    (hinv : Inv fuel allowed w) (hr : Rely p w w') (hh : h < NHASH_DEF)
    (hheld : w.ghost.held p (.chain h) ≠ none) (hsub : l ⊆ w.ghost.chain h) :
    Holds h l m w' := by
  intro key hk
  have hsame : w.ghost.st.SameOn w'.ghost.st l := fun a ha =>
    sameOn_chain hinv hr hh hheld a (hsub ha)
  rw [hsame.lookup]
  exact hl key hk

/-- Without its record the key is no longer bound. -/
theorem lookup_without {key : List Byte} {pre rest : List ℕ} {a : ℕ} {db : DB} {w : DbWorld P}
    (hf : Found key pre a rest db w) (hinv : Inv fuel allowed w)
    (hc : Contents (hashOf key) m w) :
    Holds (hashOf key) (pre ++ rest) (Function.update m key none) w := by
  have hh := hashOf_lt key
  obtain ⟨ha, hpl⟩ := hf.mem hinv
  have hnodup := hinv.lists.nodup_chain _ hh
  rw [hf.chain] at hnodup
  have hnot := (List.nodup_cons.mp (List.nodup_middle.mp hnodup)).1
  have hmem : ∀ x ∈ pre ++ rest, x ∈ w.ghost.chain (hashOf key) := by
    intro x hx
    rw [hf.chain]
    rcases List.mem_append.mp hx with hx | hx
    · exact List.mem_append_left _ hx
    · exact List.mem_append_right _ (List.mem_cons_of_mem _ hx)
  intro k hk
  by_cases hkey : k = key
  · subst hkey
    rw [Function.update_self, Store.lookup, List.find?_eq_none.mpr fun x hx => ?_]
    · rfl
    · obtain ⟨hxo, hxp⟩ := (hinv.lists.mem_chain _ hh x).mp (hmem x hx)
      simp only [decide_eq_true_eq]
      intro hxk
      have := hinv.lists.key_inj x hxo a ha _ hxp hpl (hxk.trans hf.key_eq.symm)
      exact hnot (this ▸ hx)
  · rw [Function.update_of_ne hkey, ← hc k hk, hf.chain]
    have hak : (w.ghost.st.body a).key ≠ k := by
      rw [hf.key_eq]
      exact Ne.symm hkey
    simp only [Store.lookup, List.find?_append, List.find?_cons, hak, decide_false]

/-- The record `a` is being deleted: `x` is where it is now, `v` its pointer and
`b` its body. The other records `k` of the chain hold what will be left. -/
structure Deleting (fuel : ℕ) (allowed : P → Op → Prop) (p : P) (o : KeyOp) (m : Map)
    (k : List ℕ) (a : ℕ) (x : Place P) (v : ℕ) (b : Body) (l : List ℕ) (del : Deletion)
    (w : DbWorld P) : Prop where
  inv : Inv fuel allowed w
  locked : FreeLocked p o m l del w
  record : HasRecord a x v b w
  holds : Holds (hashOf o.key) k (Function.update m o.key none) w
  others : k ⊆ l ∧ a ∉ k
  owned : ∀ i ∈ w.ghost.st.offs, w.ghost.place i = .proc p → i = a

namespace Deleting

variable {k l : List ℕ} {a v : ℕ} {x : Place P} {b : Body} {del : Deletion} {w w' : DbWorld P}

theorem stable (hd : Deleting fuel allowed p o m k a x v b l del w) (hinv : Inv fuel allowed w')
    (hr : Rely p w w') (hs : Sees (freeLocks (hashOf o.key)) p x) :
    Deleting fuel allowed p o m k a x v b l del w' where
  inv := hinv
  locked := hd.locked.stable hr
  record := hd.record.stable hr (by rw [hd.locked.working.held]; exact hs)
  holds := hd.holds.stable hd.inv hr (hashOf_lt _) hd.locked.held_ne
    (by rw [hd.locked.chain]; exact hd.others.1)
  others := hd.others
  owned i hi hp := hd.owned i (hr.owned i hi hp).1 (hr.owned i hi hp).2

omit [DecidableEq P] in
theorem sees_chain : Sees (freeLocks (hashOf o.key)) p (.chain (hashOf o.key)) := by
  change freeLocks _ _ ≠ none
  rw [freeLocks_chain]
  nofun

omit [DecidableEq P] in
theorem sees_free : Sees (freeLocks (hashOf o.key)) p (.free : Place P) := by
  change freeLocks _ _ ≠ none
  rw [freeLocks_free]
  nofun

end Deleting

section Steps

variable {pre rest : List ℕ} {a v f : ℕ} {b : Body}

/-- Blanks over the data. -/
theorem wp_blankData {db : DB} {data : List Byte} (hdata : data = List.replicate (b.datlen - 1) SPACE)
    (hd : Deleting fuel allowed p o m (pre ++ rest) a (.chain (hashOf o.key)) v b
      (pre ++ a :: rest) .idle w₀)
    (hoff : db.datoff = b.datoff) (hlen : db.datlen = b.datlen) {off : ℤ} (hoff' : off = b.datoff)
    {post : DB → Pos → DbWorld P → Prop}
    (h : ∀ pos' w, Deleting fuel allowed p o m (pre ++ rest) a (.chain (hashOf o.key)) v b
      (pre ++ a :: rest) (.blanked a) w → post db pos' w) :
    (outline fuel allowed).Wp p (.keyed o) (dbWritedat db data off .seekSet) pos w₀ post := by
  refine wp_writedatSet hoff' fun w s hinv hr hfiles hlocks => ?_
  have hd' := hd.stable hinv hr Deleting.sees_chain
  have hbody := hd'.record.body
  have hpos := (hinv.records.ok.body_ok a hd'.record.mem).datlen_pos
  have hdl := hinv.records.dat_len a hd'.record.mem
  have hreplen : data.length + 1 = (w.ghost.st.body a).datlen := by
    rw [hdata, List.length_replicate, ← hbody]
    omega
  have hnul : ∀ c ∈ data, c ≠ 0 := by
    intro c hc
    rw [hdata] at hc
    rw [List.eq_of_mem_replicate hc]
    decide
  rw [← hbody] at hfiles
  have hfiles' := hfiles.trans (files_setDat hinv (hinv.records.dat_mem a hd'.record.mem)
    (by omega))
  have hmoves := moves_blankData (.keyed o) hinv hd'.locked.wr hd'.locked.free
    hd'.locked.del hd'.record.mem hd'.record.place hnul hreplen hfiles' hlocks
    (c := .write .dat (data ++ [NEWLINE])) trivial
  refine ⟨_, hmoves, fun pos' => ?_⟩
  have hdb : { db with datoff := (b.datoff : ℤ), datlen := data.length + 1 } = db := by
    rw [hreplen, hbody, ← hlen, ← hoff]
  rw [hdb]
  refine h pos' _ ⟨hmoves.1, ⟨hd'.locked.working.step ?_ rfl rfl, hd'.locked.chain, rfl,
    hd'.locked.not_made⟩, ⟨hd'.record.mem, hd'.record.place, hd'.record.ptr, hbody⟩, ?_,
    hd'.others, hd'.owned⟩
  · exact hd'.locked.working.held
  · intro key hk
    have hsame : w.ghost.st.SameOn (w.ghost.st.setDat (w.ghost.st.body a).datoff data)
        (pre ++ rest) := by
      intro i hi
      have hi' : i ∈ w.ghost.chain (hashOf o.key) := by
        rw [hd'.locked.chain]
        exact hd'.others.1 hi
      have hio := ((hinv.lists.mem_chain _ (hashOf_lt _) i).mp hi').1
      refine ⟨rfl, Function.update_of_ne (fun he => ?_) _ _⟩
      exact hd'.others.2 (hinv.records.dat_inj i hio a hd'.record.mem he ▸ hi)
    exact (hsame.lookup key).trans (hd'.holds key hk)

/-- The free-list pointer, known while the free list is locked. -/
theorem freeptr_stable {l : List ℕ} {del : Deletion} {w w' : DbWorld P}
    (hf : FreeLocked p o m l del w) (hinv : Inv fuel allowed w) (hr : Rely p w w') :
    w'.ghost.st.ptr FREE_OFF = w.ghost.st.ptr FREE_OFF := by
  refine (hr.cells FREE_OFF (Or.inl free_mem_heads) ?_).2
  rw [hinv.lists.place_free, hf.working.held]
  exact Deleting.sees_free

/-- The record leaves the chain with a blank key. -/
theorem wp_unlinkRecord {db : DB} {key : List Byte} {ptr : ℤ}
    (hd : Deleting fuel allowed p o m (pre ++ rest) a (.chain (hashOf o.key)) v b
      (pre ++ a :: rest) (.blanked a) w₀)
    (hptr : ptr = w₀.ghost.st.ptr FREE_OFF) (hidx : db.idxoff = a) (hoff : db.datoff = b.datoff)
    (hlen : db.datlen = b.datlen) (hblank : Blank key) (hkey : key.length = b.key.length)
    {post : DB → Pos → DbWorld P → Prop}
    (h : ∀ f pos' w, w.ghost.st.ptr FREE_OFF = f →
      Deleting fuel allowed p o m (pre ++ rest) a (.proc p) f (b.rekey key) (pre ++ rest)
        (.unlinked (hashOf o.key) (lastCell (cell (hashOf o.key)) pre) v) w →
      post { db with ptrval := f, idxbuf := (b.rekey key).text, idxoff := a } pos' w) :
    (outline fuel allowed).Wp p (.keyed o) (dbWriteidx db key db.idxoff .seekSet ptr) pos w₀
      post := by
  have hh := hashOf_lt o.key
  have hplain : Body.Plain key := fun c hc => by
    rw [hblank c hc]
    decide
  have hbok := hd.inv.records.ok.body_ok a hd.record.mem
  rw [hd.record.body] at hbok
  refine wp_writeidxSet hidx hptr (hd.inv.records.ok.ptr_le _) (hbok.rekey hplain hkey) rfl hoff
    hlen fun w s hinv hr hfiles hlocks => ?_
  have hd' := hd.stable hinv hr Deleting.sees_chain
  have hbody := hd'.record.body
  have hkey' : key.length = (w.ghost.st.body a).key.length := by
    rw [hbody]
    exact hkey
  rw [← hbody] at hfiles
  have hfiles' := hfiles.trans (files_setRec hinv hd'.record.mem (hd.inv.records.ok.ptr_le _)
    (Body.length_text_rekey _ hkey'))
  have hmoves := moves_unlink (.keyed o) hinv hh hd'.locked.wr hd'.locked.free
    hd'.locked.del hd'.locked.chain hblank hkey' (hd.inv.records.ok.ptr_le _) hfiles' hlocks
    (c := .write .idx (recText (w₀.ghost.st.ptr FREE_OFF) (b.rekey key))) trivial
  have hne : FREE_OFF ≠ a := hinv.records.ok.ne_free hd'.record.mem
  rw [hd'.record.ptr] at hmoves
  refine ⟨_, hmoves, fun pos' => h _ pos' _ ?_ ?_⟩
  · change Function.update w.ghost.st.ptr a _ FREE_OFF = _
    rw [Function.update_of_ne hne]
    exact freeptr_stable hd.locked hd.inv hr
  · refine ⟨hmoves.1, ⟨hd'.locked.working.step hd'.locked.working.held rfl rfl, ?_, rfl,
      hd'.locked.not_made⟩, ⟨hd'.record.mem, ?_, ?_, ?_⟩, ?_, ⟨fun _ hi => hi, hd'.others.2⟩, ?_⟩
    · exact Function.update_self _ _ _
    · exact Function.update_self _ _ _
    · exact Function.update_self _ _ _
    · refine (Function.update_self _ _ _).trans ?_
      rw [hbody]
    · intro k hk
      have hsame : w.ghost.st.SameOn (w.ghost.st.setRec a (w₀.ghost.st.ptr FREE_OFF)
          ((w.ghost.st.body a).rekey key)) (pre ++ rest) := fun i hi =>
        ⟨Function.update_of_ne (fun he : i = a => hd'.others.2 (he ▸ hi)) _ _, rfl⟩
      exact (hsame.lookup k).trans (hd'.holds k hk)
    · intro i hi hp
      by_contra hia
      have hp' : w.ghost.place i = .proc p := (Function.update_of_ne hia _ _).symm.trans hp
      exact hia (hd'.owned i hi hp')

/-- The deleted record becomes the head of the free list. -/
theorem wp_pushFree {h x : ℕ} {l : List ℕ} {off : ℤ} (hoff : off = a)
    (hd : Deleting fuel allowed p o m l a (.proc p) f b l (.unlinked h x v) w₀)
    (hptr : w₀.ghost.st.ptr FREE_OFF = f) (hblank : Blank b.key) (hle : a ≤ PTR_MAX)
    {post : Unit → Pos → DbWorld P → Prop}
    (hpost : ∀ pos' w, Deleting fuel allowed p o m l a .free f b l (.unlinked h x v) w →
      post () pos' w) :
    (outline fuel allowed).Wp p (.keyed o) (dbWriteptr FREE_OFF off) pos w₀ post := by
  subst hoff
  refine wp_writeptr (c := FREE_OFF) hle (Or.inl free_mem_heads) fun w s hinv hr hfiles hlocks => ?_
  have hd' := hd.stable hinv hr rfl
  have hmoves := moves_pushFree (.keyed o) hinv hd'.locked.free hd'.record.mem
    hd'.record.place (by rw [hd'.record.body]; exact hblank)
    (by rw [hd'.record.ptr, freeptr_stable hd.locked hd.inv hr, hptr]) hle hfiles hlocks
    (c := .write .idx (ptrText a)) trivial
  have hne : a ≠ FREE_OFF := (hinv.records.ok.ne_free hd'.record.mem).symm
  refine ⟨_, hmoves, fun pos' => hpost pos' _ ⟨hmoves.1,
    ⟨hd'.locked.working.step hd'.locked.working.held rfl rfl, hd'.locked.chain, hd'.locked.del,
      hd'.locked.not_made⟩, ⟨hd'.record.mem, ?_, ?_, hd'.record.body⟩, hd'.holds, hd'.others, ?_⟩⟩
  · exact Function.update_self _ _ _
  · exact (Function.update_of_ne hne _ _).trans hd'.record.ptr
  · intro i hi hp
    have hplace : Function.update w.ghost.place a _ i = _ := hp
    exact hd'.owned i hi (of_update_place hplace nofun).2

/-- The cell before the deleted record is repaired. -/
theorem wp_fixChain {x : ℕ} {l : List ℕ} {off ptr : ℤ} (hoff : off = x) (hptr : ptr = v)
    (hd : Deleting fuel allowed p o m l a .free f b l (.unlinked (hashOf o.key) x v) w₀)
    (hv : v ≤ PTR_MAX) {post : Unit → Pos → DbWorld P → Prop}
    (hpost : ∀ pos' w, Deleting fuel allowed p o m l a .free f b l .idle w → post () pos' w) :
    (outline fuel allowed).Wp p (.keyed o) (dbWriteptr off ptr) pos w₀ post := by
  subst hoff hptr
  have hlock := hd.inv.locks.deleting
  rw [hd.locked.del] at hlock
  have hcell : w₀.ghost.st.IsCell x := hd.inv.lists.isCell _ _ hlock.2.1
  refine wp_writeptr hv hcell fun w s hinv hr hfiles hlocks => ?_
  have hd' := hd.stable hinv hr Deleting.sees_free
  have hmoves := moves_fix (.keyed o) hinv hd'.locked.del hd'.locked.wr hd'.locked.free hv
    hfiles hlocks (c := .write .idx (ptrText v)) trivial
  have hne : a ≠ x := by
    rintro rfl
    have hlock' := hinv.locks.deleting
    rw [hd'.locked.del] at hlock'
    exact nomatch hd'.record.place.symm.trans hlock'.2.1
  refine ⟨_, hmoves, fun pos' => hpost pos' _ ⟨hmoves.1,
    ⟨hd'.locked.working.step hd'.locked.working.held rfl rfl, hd'.locked.chain, rfl,
      hd'.locked.not_made⟩, ⟨hd'.record.mem, hd'.record.place, ?_, hd'.record.body⟩, hd'.holds,
    hd'.others, hd'.owned⟩⟩
  exact (Function.update_of_ne hne _ _).trans hd'.record.ptr

end Steps

omit [DecidableEq P] in
theorem missing_of_lookup {key : List Byte} {w : DbWorld P}
    (h : w.ghost.st.lookup (w.ghost.chain (hashOf key)) key = none) : Missing key w := by
  intro a ha hkey
  rw [Store.lookup, Option.map_eq_none_iff, List.find?_eq_none] at h
  exact h a ha (decide_eq_true hkey)

/-- _db_dodelete of the record that was found. -/
theorem wp_dodelete {db : DB} {pre rest : List ℕ} {a : ℕ} (hinv₀ : Inv fuel allowed w₀)
    (hl : Locked p o m .wrlck w₀) (hdb : OnChain o db) (hf : Found o.key pre a rest db w₀)
    {post : DB → Pos → DbWorld P → Prop}
    (h : ∀ db' pos' w, Inv fuel allowed w → OnChain o db' →
      Working p o m (chainLocks (hashOf o.key) .wrlck) w →
      Contents (hashOf o.key) (Function.update m o.key none) w → EmptyHands p w →
      post db' pos' w) :
    (outline fuel allowed).Wp p (.keyed o) (dbDodelete db) pos w₀ post := by
  have hh := hashOf_lt o.key
  obtain ⟨ha, -⟩ := hf.mem hinv₀
  have hle : a ≤ PTR_MAX := by
    refine hinv₀.records.ok.mem_linked_le (hinv₀.linked_chain hh hl.held_ne hl.not_free) (o := a) ?_
    rw [hf.chain]
    exact List.mem_append_right _ List.mem_cons_self
  have hv : w₀.ghost.st.ptr a ≤ PTR_MAX := hinv₀.records.ok.ptr_le a
  generalize hbdef : w₀.ghost.st.body a = b
  generalize hvdef : w₀.ghost.st.ptr a = v at hv
  -- the handle once its two buffers hold blanks
  obtain ⟨db₁, hdb₁⟩ : ∃ db₁ : DB, db₁ = { db with
    datbuf := List.replicate (db.datlen - 1) SPACE
    idxbuf := List.replicate db.idxbuf.length SPACE } := ⟨_, rfl⟩
  have hbuf : List.replicate (db.datlen - 1) SPACE = List.replicate (b.datlen - 1) SPACE := by
    rw [hf.located.datlen, hbdef]
  have hblank : Blank db₁.idxbuf := by
    rw [hdb₁]
    exact fun c hc => List.eq_of_mem_replicate hc
  have hkeylen : db₁.idxbuf.length = b.key.length := by
    rw [hdb₁, ← hbdef, ← hf.located.idxbuf]
    exact List.length_replicate
  have hidxoff : db₁.idxoff = a := by
    rw [hdb₁]
    exact hf.located.idxoff
  have hdatoff : db₁.datoff = b.datoff := by
    rw [hdb₁, ← hbdef]
    exact hf.located.datoff
  have hdatlen : db₁.datlen = b.datlen := by
    rw [hdb₁, ← hbdef]
    exact hf.located.datlen
  have hptrval : db₁.ptrval = v := by
    rw [hdb₁, ← hvdef]
    exact hf.located.ptrval
  have hptroff : db₁.ptroff = lastCell (cell (hashOf o.key)) pre := by
    rw [hdb₁]
    exact hf.ptroff
  have hchain : OnChain o db₁ := by
    rw [hdb₁]
    exact ⟨hdb.opened, hdb.chainoff⟩
  unfold dbDodelete dbDodeleteWith
  simp only [← hdb₁]
  refine (outline fuel allowed).wp_bind (wp_lockFree ?_ ?_)
  · rw [hl.working.held]
    exact chainLocks_other rfl _ _
  intro w₁ s₁ hinv₁ hr₁ hidle hinv₁'
  have hl₁ := hl.stable hinv₀ hr₁
  have hf₁ := hf.stable hinv₀ hr₁ hl.held_ne
  obtain ⟨ha₁, hpl₁⟩ := hf₁.mem hinv₁
  have hs₀ : Sees (w₀.ghost.held p) p (w₀.ghost.place a) := by
    rw [(hf.mem hinv₀).2]
    exact hl.held_ne
  have hnodup := hinv₁.lists.nodup_chain _ hh
  rw [hf₁.chain] at hnodup
  have hwithout := lookup_without hf₁ hinv₁ hl₁.contents
  have hd₁ : Deleting fuel allowed p o m (pre ++ rest) a (.chain (hashOf o.key)) v b
      (pre ++ a :: rest) .idle (w₁.after (.sys p (.keyed o) (.setlkw .idx .wrlck FREE_OFF 1)) s₁
        { w₁.ghost with held := setHeld w₁.ghost.held p .free (some .wrlck) }) := by
    refine ⟨hinv₁', ⟨hl₁.working.step ?_ rfl rfl, hf₁.chain, hidle, hl₁.hands.not_made⟩,
      ⟨ha₁, hpl₁, ?_, ?_⟩, fun key hk => hwithout key hk, ⟨?_, ?_⟩,
      fun i hi hp => absurd hp (hl₁.hands.not_owned i hi)⟩
    · refine (setHeld_self _ _ _).trans ?_
      rw [hl₁.working.held]
      rfl
    · exact ((hr₁.cells a (Or.inr ha) hs₀).2).trans hvdef
    · exact ((hr₁.recs a ha hs₀).1).trans hbdef
    · intro i hi
      rcases List.mem_append.mp hi with hi | hi
      · exact List.mem_append_left _ hi
      · exact List.mem_append_right _ (List.mem_cons_of_mem _ hi)
    · exact (List.nodup_cons.mp (List.nodup_middle.mp hnodup)).1
  refine (outline fuel allowed).wp_bind (wp_check (by decide) ?_)
  refine (outline fuel allowed).wp_bind (wp_blankData hbuf hd₁ hdatoff hdatlen
    (hf.located.datoff.trans (by rw [hbdef])) ?_)
  intro pos₂ w₂ hd₂
  refine (outline fuel allowed).wp_bind (wp_reads
    (fun (r : ℤ) _ => r = w₂.ghost.st.ptr FREE_OFF) hd₂.inv
    (readWp_readptr (a := FREE_OFF) (hd₂.inv.records.ok.ptr_le _)
      (known_ptr (Or.inl free_mem_heads) ?_) fun _ => rfl) ?_)
  · rw [hd₂.inv.lists.place_free, hd₂.locked.working.held]
    exact Deleting.sees_free
  rintro freeptr pos₃ w₃ hinv₃ hr₃ rfl
  have hd₃ := hd₂.stable hinv₃ hr₃ Deleting.sees_chain
  refine (outline fuel allowed).wp_bind (wp_unlinkRecord hd₃
    (by rw [freeptr_stable hd₂.locked hd₂.inv hr₃]) hidxoff hdatoff hdatlen hblank
    hkeylen ?_)
  intro f pos₄ w₄ hptr₄ hd₄
  refine (outline fuel allowed).wp_bind (wp_pushFree rfl hd₄ hptr₄ hblank hle ?_)
  intro pos₅ w₅ hd₅
  refine (outline fuel allowed).wp_bind (wp_fixChain hptroff hptrval hd₅ hv ?_)
  intro pos₆ w₆ hd₆
  refine (outline fuel allowed).wp_bind (wp_unlockFree (fun _ => hd₆.locked.del) ?_)
  intro w₇ s₇ hinv₇ hr₇ hinv₇'
  have hd₇ := hd₆.stable hinv₇ hr₇ Deleting.sees_free
  refine (outline fuel allowed).wp_bind (wp_check (by decide) (h _ _ _ hinv₇' ?_ ?_ ?_ ?_))
  · exact ⟨hchain.opened, hchain.chainoff⟩
  · refine hd₇.locked.working.step ?_ rfl rfl
    refine (setHeld_self _ _ _).trans ?_
    rw [hd₇.locked.working.held]
    exact withLock_release _ rfl
  · intro key hk
    change w₇.ghost.st.lookup (w₇.ghost.chain (hashOf o.key)) key = _
    rw [hd₇.locked.chain]
    exact hd₇.holds key hk
  · refine ⟨fun i hi hp => ?_, hd₇.locked.not_made⟩
    have hia := hd₇.owned i hi hp
    rw [hia] at hp
    cases hd₇.record.place.symm.trans hp

/-- db_delete. -/
theorem safe_delete (hfuel : PTR_MAX < fuel) {key : List Byte} {db : DB} (hdb : db.Opened)
    (hstart : Started p (.delete key) w₀) (hns : ¬ Scanner allowed p) :
    (outline fuel allowed).Safe p (.keyed (.delete key)) (keyOpBody fuel (.delete key) db) pos
      w₀ := by
  refine (outline fuel allowed).safe_of_wp ((outline fuel allowed).wp_bind
    ((outline fuel allowed).wp_bind (wp_findAndLock true hfuel hdb hstart
      (fun h => Bool.noConfusion h) ?_ ?_)))
  · intro m pre a rest db₁ pos₁ w₁ hinv₁ hl hdb₁ hf
    simp only
    have hbound : m key = some (w₁.ghost.st.dat (w₁.ghost.st.body a).datoff) :=
      (hl.contents key rfl).symm.trans (lookup_found hf hinv₁)
    refine (outline fuel allowed).wp_bind ?_
    rw [if_pos trivial]
    refine (outline fuel allowed).wp_bind (wp_dodelete hinv₁ hl hdb₁ hf ?_)
    intro db₂ pos₂ w₂ hinv₂ hdb₂ hw hc hhands
    have hmap : mapOp (.delete key) m = (Function.update m key none, .code 0) := by
      simp only [mapOp, hbound]
    refine wp_unlockChain ?_ hinv₂ hw (by rw [hmap]; exact hc) hhands fun w₃ hinv₃ hdone => ?_
    · exact ⟨hdb₂.opened, hdb₂.chainoff⟩
    · rw [hmap] at hdone
      exact safe_done hdone hdb₂.opened hns
  · intro m db₁ pos₁ w₁ hinv₁ hl hdb₁ hm
    simp only
    have hnone : m key = none := (hl.contents key rfl).symm.trans (lookup_missing hm)
    refine (outline fuel allowed).wp_bind ?_
    rw [if_neg (by decide)]
    have hmap : mapOp (.delete key) m = (m, .code (-1)) := by
      simp only [mapOp, hnone]
    refine wp_unlockChain ?_ hinv₁ hl.working (by rw [hmap]; exact hl.contents) hl.hands
      fun w₃ hinv₃ hdone => ?_
    · exact ⟨hdb₁.opened, hdb₁.chainoff⟩
    · rw [hmap] at hdone
      exact safe_done hdone hdb₁.opened hns

end Apue.Db
