import Apue.DbReopen

/-!
Calls of db_store that do not succeed. The flag and the length of the data are
checked before anything is written, but the limits of an index record only when
it is about to be written: its length when the data has been appended and an old
record of another length has been deleted, its offset when the record stands in
the index file already.
-/
namespace Apue.Db

open Programs Decimal ByteFiles Pointers Threads

variable {fuel : ℕ} {st : Store} {key data : List Byte} {flag : ℤ}

/-- Opened again, the two databases give the same answers and the same records. -/
structure SameDatabase (fuel : ℕ) (files files' : Files) : Prop where
  fetch : ∀ key, refetch fuel files' key = refetch fuel files key
  scan : rescanned fuel files' = rescanned fuel files

/-- A call of db_store that does not return 0 leaves the database as it was. -/
def FailsCleanly (fuel : ℕ) (db : DB) (pos : Pos) (files : Files) (key data : List Byte)
    (flag : ℤ) : Prop :=
  ∀ out t, (dbStore fuel db key data flag).run fileCall (files, pos) = (out, t) →
    ¬ Succeeds out → SameDatabase fuel files t.1

/-- The calls that are stopped too late. A record of another length is to be
replaced, and the new index record is longer than it may be or would stand beyond
what a pointer can reach; or a record is to be appended for want of a deleted one
of its sizes, and the index record is not too long but would stand beyond that. -/
def Store.LosesOn (st : Store) (key data : List Byte) (flag : ℤ) : Prop :=
  Accepted data flag ∧
    ((∃ o ∈ st.offs, (st.body o).key = key ∧ flag ≠ DB_INSERT ∧
        data.length + 1 ≠ (st.body o).datlen ∧
        (IDXLEN_MAX < (st.newBody key data).text.length ∨ PTR_MAX < st.idxFile.length)) ∨
      ((∀ o ∈ st.offs, (st.body o).key ≠ key) ∧ flag ≠ DB_REPLACE ∧
        (∀ a ∈ st.offs, Blank (st.body a).key → ¬ (st.body a).Fits key data) ∧
        (st.newBody key data).text.length ≤ IDXLEN_MAX ∧ PTR_MAX < st.idxFile.length))

section Resting

variable {files : Files} {chain : ℕ → List ℕ} {free : List ℕ}
variable (h : Resting files st chain free)
include h

theorem Resting.missing_iff (hkey : KeyOk key) :
    (∀ o ∈ chain (hashOf key), (st.body o).key ≠ key) ↔ ∀ o ∈ st.offs, (st.body o).key ≠ key := by
  constructor
  · intro hmiss o ho hk
    exact hmiss o (h.mem_chain_hash.mpr ⟨ho, hk ▸ hkey.nonblank, congrArg hashOf hk⟩) hk
  · exact fun hmiss o ho => hmiss o (h.mem_chain_hash.mp ho).1

theorem Resting.losesOn_missing (hkey : KeyOk key)
    (hmiss : ∀ o ∈ chain (hashOf key), (st.body o).key ≠ key) :
    st.LosesOn key data flag ↔ Accepted data flag ∧ flag ≠ DB_REPLACE ∧
      (∀ a ∈ free, ¬ (st.body a).Fits key data) ∧
      (st.newBody key data).text.length ≤ IDXLEN_MAX ∧ PTR_MAX < st.idxFile.length := by
  have hmiss' := (h.missing_iff hkey).mp hmiss
  refine and_congr_right fun _ => ⟨?_, ?_⟩
  · rintro (⟨o, ho, hk, -⟩ | ⟨-, hflag, hfit, hlens⟩)
    · exact absurd hk (hmiss' o ho)
    · exact ⟨hflag, fun a ha => hfit a ((h.mem_free a).mp ha).1 ((h.mem_free a).mp ha).2, hlens⟩
  · rintro ⟨hflag, hfit, hlens⟩
    exact Or.inr ⟨hmiss', hflag, fun a ha hb => hfit a ((h.mem_free a).mpr ⟨ha, hb⟩), hlens⟩

theorem Resting.losesOn_present {o : ℕ} (ho : o ∈ chain (hashOf key))
    (hkey : (st.body o).key = key) :
    st.LosesOn key data flag ↔ Accepted data flag ∧ flag ≠ DB_INSERT ∧
      data.length + 1 ≠ (st.body o).datlen ∧
      (IDXLEN_MAX < (st.newBody key data).text.length ∨ PTR_MAX < st.idxFile.length) := by
  obtain ⟨ho, hb, -⟩ := h.mem_chain_hash.mp ho
  refine and_congr_right fun _ => ⟨?_, ?_⟩
  · rintro (⟨a, ha, hk, hrest⟩ | ⟨hmiss, -⟩)
    · obtain rfl := h.key_injective o ho a ha hb (hkey.trans hk.symm)
      exact hrest
    · exact absurd hkey (hmiss o ho)
  · exact fun hrest => Or.inl ⟨o, ho, hkey, hrest⟩

variable (hfuel : PTR_MAX < fuel)
include hfuel

/-- An orphaned data record changes nothing. -/
theorem Resting.same_addDat (hdata : ∀ c ∈ data, c ≠ 0) :
    SameDatabase fuel st.files (st.addDat data).files where
  fetch key := by
    have hf := h.finds key
    rw [(hf.addDat hdata).refetch hfuel, hf.refetch hfuel]
  scan := by
    have hdat : ∀ o ∈ st.offs, (st.addDat data).dat (st.body o).datoff = st.dat (st.body o).datoff :=
      fun o ho => Function.update_of_ne (h.ok.ne_new_doff (h.data o ho).mem) _ _
    have hlive : (st.addDat data).live (st.addDat data).offs = st.live st.offs := rfl
    have hdata' : ∀ o ∈ st.live st.offs, (st.addDat data).HasData o := fun o ho => by
      have hd := h.data_live o ho
      refine ⟨List.mem_append_left _ hd.mem, ?_⟩
      exact hd.len.trans (congrArg (List.length · + 1) (hdat o (Store.mem_live.mp ho).1).symm)
    rw [rescanned_eq h.ok h.data_live (h.length_offs_lt hfuel),
      rescanned_eq (h.ok.addDat hdata) hdata' (h.length_offs_lt hfuel), hlive]
    ext r
    refine exists_congr fun o => and_congr_right fun ho => ?_
    rw [Store.pair, Store.pair, ← hdat o (Store.mem_live.mp ho).1]
    exact Iff.rfl

/-- The last record of the store is on no list, but it has a key and data. -/
structure Store.Orphaned (fin : Store) (fuel : ℕ) (key data : List Byte) (o : ℕ) : Prop where
  ok : fin.Ok
  last : ∃ pre, fin.offs = pre ++ [o]
  has_data : ∀ a ∈ fin.offs, fin.HasData a
  length_lt : fin.offs.length < fuel
  pair : fin.pair o = (key, data)

/-- A record that has been added and not linked. -/
theorem Resting.orphaned (hkey : KeyOk key) (hdata : ∀ c ∈ data, c ≠ 0)
    (hdlen : data.length + 1 ≤ DATLEN_MAX) {v : ℕ} (hv : v ≤ PTR_MAX)
    (hlen : (st.newBody key data).text.length ≤ IDXLEN_MAX) :
    ((st.addDat data).addRec v (st.newBody key data)).Orphaned fuel key data st.idxFile.length := by
  have hok₁ := h.ok.addDat hdata
  have hself : ((st.addDat data).addRec v (st.newBody key data)).body (st.addDat data).idxFile.length =
      st.newBody key data := Function.update_self ..
  have hdself : ((st.addDat data).addRec v (st.newBody key data)).dat st.datFile.length = data :=
    Function.update_self ..
  have hold : ∀ o ∈ st.offs, ((st.addDat data).addRec v (st.newBody key data)).body o = st.body o :=
    fun o ho => Function.update_of_ne (hok₁.ne_new_off ho) _ _
  have hdold : ∀ o ∈ st.offs, ((st.addDat data).addRec v (st.newBody key data)).dat
      (st.body o).datoff = st.dat (st.body o).datoff :=
    fun o ho => Function.update_of_ne (h.ok.ne_new_doff (h.data o ho).mem) _ _
  refine ⟨hok₁.addRec hv (Store.newBody_ok hkey hdlen hlen), ⟨st.offs, rfl⟩, fun o ho => ?_, ?_, ?_⟩
  · rcases List.mem_append.mp ho with ho | ho
    · have hd := h.data o ho
      refine ⟨by rw [hold o ho]; exact List.mem_append_left _ hd.mem, ?_⟩
      rw [hold o ho, hdold o ho]
      exact hd.len
    · obtain rfl := List.mem_singleton.mp ho
      refine ⟨by rw [hself]; exact List.mem_append_right _ List.mem_cons_self, ?_⟩
      rw [hself]
      exact (congrArg (List.length · + 1) hdself).symm
  · have hle := h.length_offs_le
    change (st.offs ++ [(st.addDat data).idxFile.length]).length < fuel
    simp only [List.length_append, List.length_singleton, PTR_MAX] at hle hfuel ⊢
    omega
  · refine Prod.ext (congrArg Body.key hself) ?_
    exact (congrArg (fun b : Body => (st.addDat data).dat b.datoff) hself).trans hdself

omit h hfuel in
theorem Store.Orphaned.mem_live {fin : Store} {o : ℕ} (ho : fin.Orphaned fuel key data o)
    (hkey : KeyOk key) : o ∈ fin.live fin.offs := by
  obtain ⟨pre, hoffs⟩ := ho.last
  refine Store.mem_live.mpr ⟨hoffs ▸ List.mem_append_right _ List.mem_cons_self, ?_⟩
  have hpair : (fin.body o).key = key := congrArg Prod.fst ho.pair
  rw [hpair]
  exact hkey.nonblank

/-- A record that is not linked is not fetched, but a scan returns it. -/
theorem Resting.scan_addRec (hkey : KeyOk key) (hdata : ∀ c ∈ data, c ≠ 0)
    (hdlen : data.length + 1 ≤ DATLEN_MAX) {v : ℕ} (hv : v ≤ PTR_MAX)
    (hlen : (st.newBody key data).text.length ≤ IDXLEN_MAX)
    (hmiss : ∀ o ∈ st.offs, (st.body o).key ≠ key) :
    ¬ SameDatabase fuel st.files ((st.addDat data).addRec v (st.newBody key data)).files := by
  intro hsame
  have horphan := h.orphaned hfuel hkey hdata hdlen hv hlen
  have hscan := hsame.scan
  rw [rescanned_eq h.ok h.data_live (h.length_offs_lt hfuel), rescanned_eq horphan.ok
    (fun o ho => horphan.has_data o (Store.mem_live.mp ho).1) horphan.length_lt] at hscan
  have hnew : (key, data) ∈ {r | ∃ o ∈ st.live st.offs, st.pair o = r} := by
    rw [← hscan]
    exact ⟨_, horphan.mem_live hkey, horphan.pair⟩
  obtain ⟨o, ho, hpair⟩ := hnew
  exact hmiss o (Store.mem_live.mp ho).1 (congrArg Prod.fst hpair)

/-- A replacement that is stopped has deleted the old record. -/
theorem Resting.lost_of_replaced {pre rest : List ℕ} {o : ℕ} {fin : Store} {log : List Store}
    (hchain : chain (hashOf key) = pre ++ o :: rest) (hkeyo : (st.body o).key = key)
    (hkey : KeyOk key) (hdata : ∀ c ∈ data, c ≠ 0) (hdlen : data.length + 1 ≤ DATLEN_MAX)
    (happ : Appends (st.unlinked o (lastCell (cell (hashOf key)) pre)) (cell (hashOf key))
      ((st.unlinked o (lastCell (cell (hashOf key)) pre)).ptr (cell (hashOf key))) key data
      log fin false) : ¬ SameDatabase fuel st.files fin.files := by
  intro hsame
  have hf := h.finds_unlinked_same hchain (rfl : hashOf key = hashOf key)
  rw [h.lookup_own hchain hkeyo] at hf
  have hbefore := (h.finds key).refetch hfuel
  rw [(h.searched key).found (hchain ▸ List.mem_append_right _ List.mem_cons_self) hkeyo] at hbefore
  have hafter : refetch fuel fin.files key = some none := by
    cases happ with
    | short hshort => exact absurd hshort (not_lt.mpr (Store.newBody_min_le hkey.nonempty))
    | long hlong => exact (hf.addDat hdata).refetch hfuel
    | far hlen hfar =>
      exact ((hf.addDat hdata).addRec (hf.ok.ptr_le _) (Store.newBody_ok hkey hdlen hlen)).refetch
        hfuel
  rw [hsame.fetch key, hbefore] at hafter
  cases hafter

variable {db : DB} (hdb : db.Opened)
include hdb

/-- The calls that fail cleanly are those that are not stopped too late. -/
theorem Resting.failsCleanly_iff (hkey : KeyOk key) (hdata : ∀ c ∈ data, c ≠ 0) (flag : ℤ)
    (pos : Pos) :
    FailsCleanly fuel db pos st.files key data flag ↔ ¬ st.LosesOn key data flag := by
  obtain ⟨log, fin, done, out, hstores, ⟨pos', hruns⟩, hsucc⟩ :=
    goes_store h hfuel hdb hdata key flag pos
  have hiff : FailsCleanly fuel db pos st.files key data flag ↔
      (done = false → SameDatabase fuel st.files fin.files) := by
    constructor
    · intro hclean hdone
      exact hclean out _ hruns.run fun hs => by
        rw [hsucc, hdone] at hs
        cases hs
    · intro himp out' t hrun hs
      rw [hruns.run] at hrun
      obtain ⟨rfl, rfl⟩ := Prod.mk.inj hrun
      refine himp ?_
      cases hd : done with
      | false => rfl
      | true => exact absurd (hsucc.mpr hd) hs
  rw [hiff]
  cases hstores with
  | refused hacc => exact iff_of_true (fun _ => ⟨fun _ => rfl, rfl⟩) fun hl => hacc hl.1
  | missing hmiss hflag =>
    refine iff_of_true (fun _ => ⟨fun _ => rfl, rfl⟩) fun hl => ?_
    exact ((h.losesOn_missing hkey hmiss).mp hl).2.1 hflag
  | present ho hk hflag =>
    refine iff_of_true (fun _ => ⟨fun _ => rfl, rfl⟩) fun hl => ?_
    exact ((h.losesOn_present ho hk).mp hl).2.1 hflag
  | @reused pre a rest hacc hmiss hflag hfree hfit =>
    refine iff_of_true nofun fun hl => ?_
    have ha : a ∈ free := hfree ▸ List.mem_append_right _ List.mem_cons_self
    exact ((h.losesOn_missing hkey hmiss).mp hl).2.2.1 a ha hfit
  | appended hacc hmiss hflag hfit happ =>
    rw [h.losesOn_missing hkey hmiss]
    cases happ with
    | short hshort => exact absurd hshort (not_lt.mpr (Store.newBody_min_le hkey.nonempty))
    | long hlong =>
      exact iff_of_true (fun _ => h.same_addDat hfuel hdata) fun hl =>
        absurd hl.2.2.2.1 (not_le.mpr hlong)
    | far hlen hfar =>
      refine iff_of_false (fun himp => ?_) (not_not.mpr ⟨hacc, hflag, hfit, hlen, hfar⟩)
      exact h.scan_addRec hfuel hkey hdata hacc.le_max (h.ok.ptr_le _) hlen
        ((h.missing_iff hkey).mp hmiss) (himp rfl)
    | linked hlen hnear =>
      exact iff_of_true nofun fun hl => absurd hl.2.2.2.2 (not_lt.mpr hnear)
  | @replaced pre o rest log fin done hacc hchain hk hflag hlen happ =>
    obtain ⟨hidx, hdat⟩ := h.length_unlinked hchain (lastCell (cell (hashOf key)) pre)
    have ho : o ∈ chain (hashOf key) := hchain ▸ List.mem_append_right _ List.mem_cons_self
    have hnew : (st.unlinked o (lastCell (cell (hashOf key)) pre)).newBody key data =
        st.newBody key data := by rw [Store.newBody, hdat, Store.newBody]
    rw [h.losesOn_present ho hk]
    cases hd : done with
    | false =>
      subst hd
      refine iff_of_false (fun himp => ?_) (not_not.mpr ⟨hacc, hflag, hlen, ?_⟩)
      · exact h.lost_of_replaced hfuel hchain hk hkey hdata hacc.le_max happ (himp rfl)
      · cases happ with
      | short hshort => exact absurd hshort (not_lt.mpr (Store.newBody_min_le hkey.nonempty))
        | long hlong => exact Or.inl (hnew ▸ hlong)
        | far hle hfar => exact Or.inr (hidx ▸ hfar)
    | true =>
      subst hd
      refine iff_of_true nofun fun hl => ?_
      cases happ with
      | linked hle hnear =>
        rcases hl.2.2.2 with hlong | hfar
        · exact absurd hlong (not_lt.mpr (hnew ▸ hle))
        · exact absurd hfar (not_lt.mpr (hidx ▸ hnear))
  | overwritten hacc ho hk hflag hlen =>
    exact iff_of_true nofun fun hl => ((h.losesOn_present ho hk).mp hl).2.2.1 hlen

end Resting

section Reached

variable {P : Type} [DecidableEq P] {allowed : P → Op → Prop}

/-- Whenever all processes are between operations, a call of db_store by one of
them that does not succeed leaves the database as it was, unless it is one of
those that are stopped too late. -/
theorem store_fails_cleanly (hfuel : PTR_MAX < fuel)
    (hallowed : ∀ p o, allowed p (.keyed o) → o.Ok) {c : DbConfig P}
    (hreach : Reach (machine fuel allowed) (opened createdFiles) c)
    (hidle : ∀ p, ∃ db, c.thread p = .idle db) :
    ∃ st chain free, LayoutOf c.shared.files st chain free ∧
      ∀ p db, c.thread p = .idle db → ∀ key data flag, KeyOk key → (∀ x ∈ data, x ≠ 0) →
        (FailsCleanly fuel db (c.priv p) c.shared.files key data flag ↔
          ¬ st.LosesOn key data flag) := by
  obtain ⟨⟨st, chain, free, h⟩, hopened⟩ := resting_of_reach hfuel hallowed hreach hidle
  refine ⟨st, chain, free, h.toLayoutOf, fun p db hp key data flag hkey hdata => ?_⟩
  rw [h.text]
  exact h.failsCleanly_iff hfuel (hopened p db hp) hkey hdata flag (c.priv p)

theorem store_fails_cleanly_stored : ∃ (c : DbConfig Bool) (st : Store) (chain : ℕ → List ℕ)
    (free : List ℕ) (db : DB), Reach (machine 10000000 fun _ o => o.Ok) (opened createdFiles) c ∧
    LayoutOf c.shared.files st chain free ∧ c.thread true = .idle db ∧
    (FailsCleanly 10000000 db (c.priv true) c.shared.files [97] [121, 122] DB_REPLACE ↔
      ¬ st.LosesOn [97] [121, 122] DB_REPLACE) := by
  have ha : KeyOk [97] := keyOk_singleton (by decide) (by decide) (by decide)
  have hrun : answerAfter 10000000 (.keyed (.store [97] [120] DB_INSERT)) (.keyed (.fetch [97])) =
      some (.data (some [120]), 984) := by
    decide +kernel
  obtain ⟨c, -, -, hreach, -, -, hidle, -⟩ := @reach_turns _ (fun _ o => o.Ok) _ _ _ _
    (by simp [Op.Ok, KeyOp.Ok, ha]) (by simp [Op.Ok, KeyOp.Ok, ha]) hrun
  obtain ⟨db, hp⟩ := hidle true
  obtain ⟨st, chain, free, hlayout, hiff⟩ :=
    store_fails_cleanly (by decide) (fun _ _ h => h) hreach hidle
  exact ⟨c, st, chain, free, db, hreach, hlayout, hp,
    hiff true db hp [97] [121, 122] DB_REPLACE ha (by decide)⟩

/-- A key of the length at which the digits of the data length decide. -/
def longKey : List Byte := List.replicate 1019 97

/-- The record of the long key is there, and is lost when its data is replaced. -/
def longKeyLost : Outcome (DB × Res) × (Files × Pos) → Bool
  | (.ok (db, _), files, pos) =>
    decide (refetch 10000000 files longKey = some (some [120])) &&
      match (dbStore 10000000 db longKey (List.replicate 9 120) DB_REPLACE).run fileCall
        (files, pos) with
      | (.aborted _, files', _) => decide (refetch 10000000 files' longKey = some none)
      | _ => false
  | _ => false

theorem longKey_lost : longKeyLost ((opBody 10000000 (.keyed (.store longKey [120] DB_INSERT))
    openedHandle).run fileCall (createdFiles, ⟨967, 0⟩)) = true := by
  decide +kernel

theorem keyOk_longKey : KeyOk longKey where
  nonempty := nofun
  plain := fun c hc => by
    rw [List.eq_of_mem_replicate hc]
    decide
  nonblank := fun hblank => absurd (hblank 97 (List.mem_replicate.mpr ⟨by decide, rfl⟩)) (by decide)

/-- A database of one record of 1024 bytes, which is replaced by one with nine
bytes of data: the new record would have 1025 bytes, and the old one is lost. -/
theorem replace_loses_record : ∃ (c : DbConfig Unit) (db : DB) (key data : List Byte),
    Reach (machine 10000000 fun _ o => o.Ok) (opened createdFiles) c ∧ c.thread () = .idle db ∧
    KeyOk key ∧ (∀ x ∈ data, x ≠ 0) ∧
    ¬ FailsCleanly 10000000 db (c.priv ()) c.shared.files key data DB_REPLACE := by
  have hlost := longKey_lost
  have hokop : Op.Ok (.keyed (.store longKey [120] DB_INSERT)) :=
    ⟨keyOk_longKey, by decide, Or.inl rfl⟩
  unfold longKeyLost at hlost
  split at hlost
  · rename_i db r files pos hrun
    obtain ⟨hbefore, hafter⟩ := Bool.and_eq_true_iff.mp hlost
    split at hafter
    · rename_i msg files' pos' hrun'
      obtain ⟨c, -, hreach, hthread, hfiles, -⟩ :=
        @reach_alone Unit _ _ (fun _ o => o.Ok) _ _ .refl (atRest_opened _) () _ _ _ _ _ rfl hokop
          hrun
      obtain ⟨rfl, rfl⟩ := Prod.mk.inj hfiles
      refine ⟨c, db, longKey, List.replicate 9 120, hreach, ?_, keyOk_longKey, by decide, ?_⟩
      · rw [hthread, Function.update_self]
      · intro hclean
        have hsame := hclean _ _ hrun' (by rintro ⟨_, he⟩; cases he)
        have hfetch := hsame.fetch longKey
        rw [of_decide_eq_true hbefore, of_decide_eq_true hafter] at hfetch
        cases hfetch
    · cases hafter
  · cases hlost

end Reached

end Apue.Db
