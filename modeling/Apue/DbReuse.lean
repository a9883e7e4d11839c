import Apue.DbReopen
import Apue.DbSettled

/-!
The space of deleted records. The free list of a database at rest holds all of
them, so an insertion that finds none of its sizes there has to add to the files,
and one that finds one takes it.
-/
namespace Apue.Db

open Programs Decimal ByteFiles Pointers Threads

variable {fuel : ℕ} {st : Store} {key data old : List Byte} {flag : ℤ}

def Files.SameSizes (files files' : Files) : Prop :=
  files'.idx.length = files.idx.length ∧ files'.dat.length = files.dat.length

def Files.Grow (files files' : Files) : Prop :=
  files.idx.length < files'.idx.length ∧ files.dat.length < files'.dat.length

/-- What an insertion does with the deleted records `free`: either none of them
fits and the files grow, or one that fits gets the key and leaves them, and the
files keep their sizes. The others stay what they were. -/
structure Recycles (files files' : Files) (st st' : Store) (free free' : List ℕ)
    (key data : List Byte) : Prop where
  grow_iff : files.Grow files' ↔ ∀ a ∈ free, ¬ (st.body a).Fits key data
  none_fits : (∀ a ∈ free, ¬ (st.body a).Fits key data) → free' = free
  taken : (∃ a ∈ free, (st.body a).Fits key data) → files.SameSizes files' ∧
    ∃ a ∈ free, (st.body a).Fits key data ∧ st'.body a = (st.body a).rekey key ∧
      free' = free.erase a
  others : ∀ a ∈ free', st'.body a = st.body a

section Resting

variable {chain : ℕ → List ℕ} {free pre rest : List ℕ} {o : ℕ}
variable (h : Resting st.files st chain free)
include h

theorem Resting.sameSizes_overwritten (hdata : ∀ c ∈ data, c ≠ 0) (ho : o ∈ st.offs)
    (hlen : data.length + 1 = (st.body o).datlen) :
    st.files.SameSizes (st.setDat (st.body o).datoff data).files := by
  refine h.ok.length_files (h.overwritten hdata ho hlen).ok rfl (fun _ _ => rfl) rfl fun d _ => ?_
  by_cases hd : d = (st.body o).datoff
  · have hself : (st.setDat (st.body o).datoff data).dat (st.body o).datoff = data :=
      Function.update_self ..
    have hold := (h.data o ho).len
    rw [hd, hself]
    omega
  · exact congrArg List.length (Function.update_of_ne hd ..)

theorem Resting.sameSizes_reused (hkey : KeyOk key) (hdata : ∀ c ∈ data, c ≠ 0)
    (hmiss : ∀ a ∈ chain (hashOf key), (st.body a).key ≠ key) (hfree : free = pre ++ o :: rest)
    (hfit : (st.body o).Fits key data) : st.files.SameSizes (st.reused pre o key data).files := by
  have ho := ((h.mem_free o).mp (hfree ▸ List.mem_append_right _ List.mem_cons_self)).1
  refine h.ok.length_files (h.reused hkey hdata hmiss hfree hfit).ok rfl (fun a _ => ?_) rfl
    fun d _ => ?_
  · by_cases hao : a = o
    · have hself : (st.reused pre o key data).body o = (st.body o).rekey key :=
        Function.update_self ..
      rw [hao, hself, Body.length_text_rekey _ hfit.1.symm]
    · have hbody : (st.reused pre o key data).body a = st.body a := Function.update_of_ne hao ..
      rw [hbody]
  · by_cases hd : d = (st.body o).datoff
    · have hself : (st.reused pre o key data).dat (st.body o).datoff = data :=
        Function.update_self ..
      have hold := (h.data o ho).len
      have hnew := hfit.2
      rw [hd, hself]
      omega
    · exact congrArg List.length (Function.update_of_ne hd ..)

/-- An append adds one record to each file. -/
theorem Resting.length_appended (hkey : KeyOk key) (hdata : ∀ c ∈ data, c ≠ 0)
    (hmiss : ∀ a ∈ chain (hashOf key), (st.body a).key ≠ key) (hdlen : data.length + 1 ≤ DATLEN_MAX)
    (hlen : (st.newBody key data).text.length ≤ IDXLEN_MAX) (hnear : st.idxFile.length ≤ PTR_MAX) :
    (((st.addDat data).addRec (st.ptr (cell (hashOf key))) (st.newBody key data)).setPtr
      (cell (hashOf key)) st.idxFile.length).idxFile.length =
        st.idxFile.length + (PTR_SZ + IDXLEN_SZ + (st.newBody key data).text.length) ∧
    (((st.addDat data).addRec (st.ptr (cell (hashOf key))) (st.newBody key data)).setPtr
      (cell (hashOf key)) st.idxFile.length).datFile.length =
        st.datFile.length + (data.length + 1) := by
  have hok := (h.ok.addDat hdata).addRec (h.ok.ptr_le (cell (hashOf key)))
    (Store.newBody_ok hkey hdlen hlen)
  obtain ⟨hidx, hdat⟩ := hok.length_files (h.appended hkey hdata hmiss hdlen hlen hnear).ok rfl
    (fun _ _ => rfl) rfl fun _ _ => rfl
  have haddDat := congrArg List.length (@Store.Ok.write_addDat st data h.ok)
  have haddRec := congrArg List.length ((h.ok.addDat hdata).write_addRec
    (v := st.ptr (cell (hashOf key))) (b := st.newBody key data))
  rw [writeAt_end, List.length_append] at haddDat haddRec
  rw [length_recText (h.ok.ptr_le (cell (hashOf key))) hlen] at haddRec
  rw [List.length_append, List.length_singleton] at haddDat
  exact ⟨hidx.trans haddRec.symm, hdat.trans haddDat.symm⟩

theorem Resting.grow_appended (hkey : KeyOk key) (hdata : ∀ c ∈ data, c ≠ 0)
    (hmiss : ∀ a ∈ chain (hashOf key), (st.body a).key ≠ key) (hdlen : data.length + 1 ≤ DATLEN_MAX)
    (hlen : (st.newBody key data).text.length ≤ IDXLEN_MAX) (hnear : st.idxFile.length ≤ PTR_MAX) :
    st.files.Grow (((st.addDat data).addRec (st.ptr (cell (hashOf key)))
      (st.newBody key data)).setPtr (cell (hashOf key)) st.idxFile.length).files := by
  obtain ⟨hidx, hdat⟩ := h.length_appended hkey hdata hmiss hdlen hlen hnear
  simp only [PTR_SZ] at hidx
  exact ⟨by simp only [Store.files]; omega, by simp only [Store.files]; omega⟩

variable (hfuel : PTR_MAX < fuel)
include hfuel

/-- A record on the chain of its key binds the key. -/
theorem Resting.binding_of_mem (ho : o ∈ chain (hashOf key)) (hkey : (st.body o).key = key) :
    Binding fuel st.files key (st.dat (st.body o).datoff) := by
  obtain ⟨hmem, hb, -⟩ := h.mem_chain_hash.mp ho
  exact (h.binding_iff hfuel).mpr ⟨o, Store.mem_live.mpr ⟨hmem, hb⟩, Prod.ext hkey rfl⟩

variable {db : DB} (hdb : db.Opened)
include hdb

theorem Resting.sameSizes_delete (key : List Byte) {pos : Pos} {out : Outcome (DB × ℤ)}
    {t : Files × Pos} (hrun : (dbDelete fuel db key).run fileCall (st.files, pos) = (out, t)) :
    st.files.SameSizes t.1 := by
  obtain ⟨log, fin, db', rc, hdel, -, pos', hruns⟩ := goes_delete h hfuel hdb key pos
  obtain ⟨-, rfl⟩ := Prod.mk.inj (hruns.run.symm.trans hrun)
  cases hdel with
  | missing hmiss => exact ⟨rfl, rfl⟩
  | removed hchain hk => exact h.length_unlinked hchain _

/-- A replacement by data of the same length. -/
theorem Resting.sameSizes_store (hdata : ∀ c ∈ data, c ≠ 0)
    (hold : Binding fuel st.files key old) (hlen : data.length = old.length) {pos : Pos}
    {out : Outcome (DB × ℤ)} {t : Files × Pos}
    (hrun : (dbStore fuel db key data flag).run fileCall (st.files, pos) = (out, t)) :
    st.files.SameSizes t.1 := by
  obtain ⟨log, fin, done, out', hstores, ⟨pos', hruns⟩, -⟩ :=
    goes_store h hfuel hdb hdata key flag pos
  obtain ⟨-, rfl⟩ := Prod.mk.inj (hruns.run.symm.trans hrun)
  obtain ⟨a, ha, hpair⟩ := (h.binding_iff hfuel).mp hold
  obtain ⟨ha, hb⟩ := Store.mem_live.mp ha
  obtain ⟨hka, hda⟩ := Prod.mk.inj hpair
  have hmem : a ∈ chain (hashOf key) := h.mem_chain_hash.mpr ⟨ha, hb, congrArg hashOf hka⟩
  have hsize : data.length + 1 = (st.body a).datlen := by
    rw [(h.data a ha).len, hda, hlen]
  cases hstores with
  | refused _ => exact ⟨rfl, rfl⟩
  | missing hmiss _ => exact absurd hka (hmiss a hmem)
  | present _ _ _ => exact ⟨rfl, rfl⟩
  | reused _ hmiss _ _ _ => exact absurd hka (hmiss a hmem)
  | appended _ hmiss _ _ _ => exact absurd hka (hmiss a hmem)
  | replaced _ hchain hk _ hne _ =>
    have ho := hchain ▸ List.mem_append_right _ List.mem_cons_self
    exact absurd ((h.searched key).uniq _ ho a hmem hk hka ▸ hsize) hne
  | overwritten _ ho hk _ hne =>
    exact h.sameSizes_overwritten hdata (h.mem_chain_hash.mp ho).1 hne

/-- A new key. -/
theorem Resting.recycles (hkey : KeyOk key) (hdata : ∀ c ∈ data, c ≠ 0)
    (hnone : ∀ old, ¬ Binding fuel st.files key old) {pos : Pos} {db' : DB} {t : Files × Pos}
    (hrun : (dbStore fuel db key data flag).run fileCall (st.files, pos) = (.ok (db', 0), t)) :
    ∃ st' chain' free', LayoutOf t.1 st' chain' free' ∧
      Recycles st.files t.1 st st' free free' key data := by
  obtain ⟨log, fin, done, out, hstores, ⟨pos', hruns⟩, hsucc⟩ :=
    goes_store h hfuel hdb hdata key flag pos
  obtain ⟨rfl, rfl⟩ := Prod.mk.inj (hruns.run.symm.trans hrun)
  obtain rfl := hsucc.mp ⟨db', rfl⟩
  cases hstores with
  | @reused pre a rest hacc hmiss hflag hfree hfit =>
    have ha : a ∈ free := hfree ▸ List.mem_append_right _ List.mem_cons_self
    have hsizes := h.sameSizes_reused hkey hdata hmiss hfree hfit
    have hnodup := h.nodup_free
    rw [hfree] at hnodup
    obtain ⟨hnot, -⟩ := List.nodup_cons.mp (List.nodup_middle.mp hnodup)
    refine ⟨_, _, _, (h.reused hkey hdata hmiss hfree hfit).toLayoutOf, ?_, ?_, fun _ => ?_, ?_⟩
    · exact iff_of_false (fun hgrow => hgrow.1.ne' hsizes.1) fun hno => hno a ha hfit
    · exact fun hno => absurd hfit (hno a ha)
    · refine ⟨hsizes, a, ha, hfit, Function.update_self .., ?_⟩
      rw [hfree, List.erase_append_right _ fun hm => hnot (List.mem_append_left _ hm),
        List.erase_cons_head]
    · exact fun b hb => Function.update_of_ne (ne_of_mem_of_not_mem hb hnot) ..
  | appended hacc hmiss hflag hfit happ =>
    cases happ with
    | linked hlen hnear =>
      have hgrow := h.grow_appended hkey hdata hmiss hacc.le_max hlen hnear
      refine ⟨_, _, _, (h.appended hkey hdata hmiss hacc.le_max hlen hnear).toLayoutOf,
        iff_of_true hgrow hfit, fun _ => rfl, ?_, fun b hb => ?_⟩
      · rintro ⟨a, ha, hfits⟩
        exact absurd hfits (hfit a ha)
      · have hb := ((h.mem_free b).mp hb).1
        exact Function.update_of_ne (ne_of_mem_of_not_mem hb h.ok.new_off) ..
  | replaced _ hchain hk _ _ _ =>
    exact absurd (h.binding_of_mem hfuel (hchain ▸ List.mem_append_right _ List.mem_cons_self) hk)
      (hnone _)
  | overwritten _ ho hk _ _ => exact absurd (h.binding_of_mem hfuel ho hk) (hnone _)

end Resting

section Reached

variable {P : Type} [DecidableEq P] {allowed : P → Op → Prop}

/-- Whenever all processes are between operations, the deleted records are those
on the free list, a deletion and a replacement by data of the same length keep the
files in their sizes, and a call of db_store that adds a key takes a deleted
record of its sizes if there is one and makes both files grow if there is none. -/
theorem space_reused (hfuel : PTR_MAX < fuel) (hallowed : ∀ p o, allowed p (.keyed o) → o.Ok)
    {c : DbConfig P} (hreach : Reach (machine fuel allowed) (opened createdFiles) c)
    (hidle : ∀ p, ∃ db, c.thread p = .idle db) :
    ∃ st chain free, LayoutOf c.shared.files st chain free ∧
      ∀ p db, c.thread p = .idle db → ∀ key, KeyOk key →
        (∀ out t, (dbDelete fuel db key).run fileCall (c.shared.files, c.priv p) = (out, t) →
          c.shared.files.SameSizes t.1) ∧
        ∀ data, (∀ x ∈ data, x ≠ 0) →
          (∀ flag old out t, Binding fuel c.shared.files key old → data.length = old.length →
            (dbStore fuel db key data flag).run fileCall (c.shared.files, c.priv p) = (out, t) →
            c.shared.files.SameSizes t.1) ∧
          ∀ flag db' t, (flag = DB_INSERT ∨ flag = DB_STORE) →
            (∀ old, ¬ Binding fuel c.shared.files key old) →
            (dbStore fuel db key data flag).run fileCall (c.shared.files, c.priv p) =
              (.ok (db', 0), t) →
            ∃ st' chain' free', LayoutOf t.1 st' chain' free' ∧
              Recycles c.shared.files t.1 st st' free free' key data := by
  obtain ⟨⟨st, chain, free, h⟩, hopened⟩ := resting_of_reach hfuel hallowed hreach hidle
  have htext := h.text
  rw [htext] at h
  refine ⟨st, chain, free, htext ▸ h.toLayoutOf, fun p db hp key hkey => ?_⟩
  rw [htext]
  refine ⟨fun out t hrun => ?_, fun data hdata => ⟨fun flag old out t hold hlen hrun => ?_,
    fun flag db' t _ hnone hrun => ?_⟩⟩
  · exact h.sameSizes_delete hfuel (hopened p db hp) key hrun
  · exact h.sameSizes_store hfuel (hopened p db hp) hdata hold hlen hrun
  · exact h.recycles hfuel (hopened p db hp) hkey hdata hnone hrun

theorem space_reused_deleted : ∃ (c : DbConfig Bool) (st : Store) (chain : ℕ → List ℕ)
    (free : List ℕ) (db : DB), Reach (machine 10000000 fun _ o => o.Ok) (opened createdFiles) c ∧
    LayoutOf c.shared.files st chain free ∧ c.thread true = .idle db ∧
    ∀ db' t, (∀ old, ¬ Binding 10000000 c.shared.files [98] old) →
      (dbStore 10000000 db [98] [121] DB_INSERT).run fileCall (c.shared.files, c.priv true) =
        (.ok (db', 0), t) →
      ∃ st' chain' free', LayoutOf t.1 st' chain' free' ∧
        Recycles c.shared.files t.1 st st' free free' [98] [121] := by
  have ha : KeyOk [97] := keyOk_singleton (by decide) (by decide) (by decide)
  have hb : KeyOk [98] := keyOk_singleton (by decide) (by decide) (by decide)
  have hrun : answerAfter 10000000 (.keyed (.store [97] [120] DB_INSERT)) (.keyed (.delete [97])) =
      some (.code 0, 984) := by
    decide +kernel
  obtain ⟨c, -, -, hreach, -, -, hidle, -⟩ := @reach_turns _ (fun _ o => o.Ok) _ _ _ _
    (by simp [Op.Ok, KeyOp.Ok, ha]) (by simp [Op.Ok, KeyOp.Ok, ha]) hrun
  obtain ⟨db, hp⟩ := hidle true
  obtain ⟨st, chain, free, hlayout, hall⟩ := space_reused (by decide) (fun _ _ h => h) hreach hidle
  exact ⟨c, st, chain, free, db, hreach, hlayout, hp, fun db' t =>
    ((hall true db hp [98] hb).2 [121] (by decide)).2 DB_INSERT db' t (Or.inl rfl)⟩

end Reached

end Apue.Db
