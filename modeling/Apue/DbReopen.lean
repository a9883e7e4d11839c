import Apue.DbResting
import Apue.DbUpdates

/-!
What the users of a database see after it has been opened again: the answer of
db_fetch to every key, and the records that a scan returns. Both are read off
the store that the files are the text of, whether or not the last update of it
was finished. The lemmas say which updates leave the answer to a key alone.
-/
namespace Apue.Db

open Programs Decimal ByteFiles Pointers Threads

variable {fuel : ℕ} {st : Store} {key key' data : List Byte} {l : List ℕ}
variable {r : Option (List Byte)}

/-- db_open of a database that exists, and then the operations. -/
def reopen (fuel : ℕ) (files : Files) (os : List Op) : Outcome (List Res × DB) × (Files × Pos) :=
  useOpened fuel os ((dbOpen false).run fileCall (files, ⟨0, 0⟩))

theorem reopen_eq (fuel : ℕ) (files : Files) (os : List Op) :
    reopen fuel files os = (machine fuel fun (_ : Unit) o => o.Ok).runAll fileCall os openedHandle
      (files, ⟨967, 0⟩) := by
  rw [reopen, dbOpen_existing]
  rfl

/-- The answer of db_fetch in a database that is opened again, or `none` if it
gives no answer. -/
def refetch (fuel : ℕ) (files : Files) (key : List Byte) : Option (Option (List Byte)) :=
  match reopen fuel files [.keyed (.fetch key)] with
  | (.ok ([.data ptr], _), _) => some ptr
  | _ => none

/-- The records that a scan returns in a database that is opened again. -/
def rescanned (fuel : ℕ) (files : Files) : Set (List Byte × List Byte) :=
  {r | ∃ n rs db t, reopen fuel files (.rewind :: List.replicate n .nextrec) = (.ok (rs, db), t) ∧
    .record (some r) ∈ rs}

/-- The search for the key goes through the records `l` and finds `r`. -/
structure Store.Finds (st : Store) (key : List Byte) (l : List ℕ) (r : Option (List Byte)) :
    Prop where
  ok : st.Ok
  searched : st.Searched key l
  result : st.lookup l key = r

theorem Store.Finds.refetch (h : st.Finds key l r) (hfuel : PTR_MAX < fuel) :
    refetch fuel st.files key = some r := by
  obtain ⟨db, -, -, pos, hruns⟩ := goes_fetch hfuel h.ok opened_openedHandle h.searched ⟨967, 0⟩
  have hbody : Runs ((machine fuel fun (_ : Unit) o => o.Ok).body (.keyed (.fetch key)) openedHandle)
      (st.files, ⟨967, 0⟩) [] (.ok (db, .data r)) (st.files, pos) := by
    rw [← h.result]
    exact hruns.next (Runs.ret _ _)
  rw [Db.refetch, reopen_eq, Machine.runAll, hbody.run]
  rfl

/-- Where nothing is found nothing is bound. -/
theorem Store.Finds.not_binding (h : st.Finds key l none) (hfuel : PTR_MAX < fuel)
    {data : List Byte} : ¬ Binding fuel st.files key data := by
  obtain ⟨db, -, -, pos, hruns⟩ := goes_fetch hfuel h.ok opened_openedHandle h.searched ⟨967, 0⟩
  rintro ⟨db', pos', hrun⟩
  rw [h.result] at hruns
  exact nomatch hruns.run.symm.trans hrun

theorem rescanned_eq (hok : st.Ok) (hdata : ∀ o ∈ st.live st.offs, st.HasData o)
    (hfuel : st.offs.length < fuel) :
    rescanned fuel st.files = {r | ∃ o ∈ st.live st.offs, st.pair o = r} := by
  ext r
  simp only [rescanned, Set.mem_ofPred_eq]
  constructor
  · rintro ⟨n, rs, db, t, hrun, hmem⟩
    obtain ⟨db', pos', hscan, -⟩ := runAll_scan (fun (_ : Unit) o => o.Ok) hok hdata hfuel n
      opened_openedHandle ⟨967, 0⟩
    rw [reopen_eq, hscan] at hrun
    obtain ⟨rfl, -⟩ := Prod.mk.inj (Outcome.ok.inj (Prod.mk.inj hrun).1)
    rcases List.mem_cons.mp hmem with he | hmem
    · cases he
    · obtain ⟨i, -, he⟩ := List.mem_map.mp hmem
      obtain ⟨o, ho, hpair⟩ := Option.map_eq_some_iff.mp (Res.record.inj he)
      exact ⟨o, List.mem_of_getElem? ho, hpair⟩
  · rintro ⟨o, ho, hpair⟩
    obtain ⟨i, hi, hget⟩ := List.mem_iff_getElem.mp ho
    obtain ⟨db', pos', hscan, -⟩ := runAll_scan (fun (_ : Unit) o => o.Ok) hok hdata hfuel (i + 1)
      opened_openedHandle ⟨967, 0⟩
    refine ⟨i + 1, _, db', _, (reopen_eq _ _ _).trans hscan, List.mem_cons_of_mem _ ?_⟩
    refine List.mem_map.mpr ⟨i, List.mem_range.mpr (Nat.lt_succ_self i), ?_⟩
    rw [List.getElem?_eq_getElem hi, hget, Option.map_some, hpair]

namespace Store.Finds

variable {o c v d : ℕ} {b : Body}

theorem frame {st' : Store} (h : st.Finds key l r) (hok : st'.Ok)
    (hptr : ∀ c ∈ cell (hashOf key) :: l, st'.ptr c = st.ptr c)
    (hbody : ∀ o ∈ l, st'.body o = st.body o) (hoffs : ∀ o ∈ l, o ∈ st'.offs)
    (hdata : ∀ o ∈ l, (st.body o).key = key → (st.body o).datoff ∈ st'.doffs ∧
      st'.dat (st.body o).datoff = st.dat (st.body o).datoff) : st'.Finds key l r := by
  obtain ⟨hs, hlookup⟩ := h.searched.frame hptr hbody hoffs hdata
  exact ⟨hok, hs, hlookup.trans h.result⟩

theorem mem_doffs (h : st.Finds key l r) (ho : o ∈ l) (hkey : (st.body o).key = key) :
    (st.body o).datoff ∈ st.doffs := (h.searched.data o ho hkey).mem

theorem setPtr (h : st.Finds key l r) (hv : v ≤ PTR_MAX) (hc : c ∉ cell (hashOf key) :: l) :
    (st.setPtr c v).Finds key l r :=
  h.frame (h.ok.setPtr hv) (fun _ ha => Function.update_of_ne (ne_of_mem_of_not_mem ha hc) _ _)
    (fun _ _ => rfl) h.searched.mem fun _ ho hkey => ⟨h.mem_doffs ho hkey, rfl⟩

theorem setDat (h : st.Finds key l r) (hd : d ∈ st.doffs) (hdata : ∀ c ∈ data, c ≠ 0)
    (hlen : data.length = (st.dat d).length)
    (hother : ∀ o ∈ l, (st.body o).key = key → (st.body o).datoff ≠ d) :
    (st.setDat d data).Finds key l r :=
  h.frame (h.ok.setDat hd hdata hlen) (fun _ _ => rfl) (fun _ _ => rfl) h.searched.mem
    fun o ho hkey => ⟨h.mem_doffs ho hkey, Function.update_of_ne (hother o ho hkey) _ _⟩

theorem setRec (h : st.Finds key l r) (ho : o ∈ st.offs) (hv : v ≤ PTR_MAX) (hb : b.Ok)
    (hlen : b.text.length = (st.body o).text.length) (hnot : o ∉ l) :
    (st.setRec o v b).Finds key l r := by
  refine h.frame (h.ok.setRec ho hv hb hlen) (fun c hc => ?_) (fun a ha => ?_) h.searched.mem
    fun a ha hkey => ⟨h.mem_doffs ha hkey, rfl⟩
  · refine Function.update_of_ne (fun he => ?_) _ _
    rcases List.mem_cons.mp hc with hcell | hmem
    · exact h.ok.ne_cell ho (hashOf_lt key) (hcell.symm.trans he)
    · exact hnot (he ▸ hmem)
  · exact Function.update_of_ne (ne_of_mem_of_not_mem ha hnot) _ _

theorem addDat (h : st.Finds key l r) (hdata : ∀ c ∈ data, c ≠ 0) :
    (st.addDat data).Finds key l r :=
  h.frame (h.ok.addDat hdata) (fun _ _ => rfl) (fun _ _ => rfl) h.searched.mem fun _ ho hkey =>
    ⟨List.mem_append_left _ (h.mem_doffs ho hkey),
      Function.update_of_ne (h.ok.ne_new_doff (h.mem_doffs ho hkey)) _ _⟩

theorem addRec (h : st.Finds key l r) (hv : v ≤ PTR_MAX) (hb : b.Ok) :
    (st.addRec v b).Finds key l r := by
  have hne : ∀ o ∈ l, o ≠ st.idxFile.length := fun o ho => h.ok.ne_new_off (h.searched.mem o ho)
  refine h.frame (h.ok.addRec hv hb) (fun c hc => ?_)
    (fun a ha => Function.update_of_ne (hne a ha) _ _)
    (fun o ho => List.mem_append_left _ (h.searched.mem o ho))
    fun a ha hkey => ⟨h.mem_doffs ha hkey, rfl⟩
  rcases List.mem_cons.mp hc with rfl | hmem
  · refine Function.update_of_ne (fun he => ?_) _ _
    have h₁ := head_lt (cell_mem_heads (hashOf_lt key))
    have h₂ := h.ok.new_off_ge
    omega
  · exact Function.update_of_ne (hne c hmem) _ _

/-- The start of another list is not on the way. -/
theorem head_not_mem (h : st.Finds key l r) (hc : c ∈ heads) (hne : c ≠ cell (hashOf key)) :
    c ∉ cell (hashOf key) :: l := by
  rintro hmem
  rcases List.mem_cons.mp hmem with he | hmem
  · exact hne he
  · exact h.ok.not_head (h.searched.mem c hmem) hc

/-- A record with another key is put in front of the chain. -/
theorem link (h : st.Finds key l r) (ho : o ∈ st.offs) (hle : o ≤ PTR_MAX) (hnot : o ∉ l)
    (hkey : (st.body o).key ≠ key) (hptr : st.ptr o = st.ptr (cell (hashOf key))) :
    (st.setPtr (cell (hashOf key)) o).Finds key (o :: l) r where
  ok := h.ok.setPtr hle
  searched := {
    linked := linked_insert (h.ok.ne_cell ho (hashOf_lt key))
      (fun hmem => h.ok.not_head (h.searched.mem _ hmem) (cell_mem_heads (hashOf_lt key))) hptr
      h.searched.linked
    nodup := List.nodup_cons.mpr ⟨hnot, h.searched.nodup⟩
    mem := fun a ha => by
      rcases List.mem_cons.mp ha with rfl | ha
      · exact ho
      · exact h.searched.mem a ha
    uniq := fun a ha a' ha' hka hka' => by
      have hl := (List.mem_cons.mp ha).resolve_left fun he => hkey (he ▸ hka)
      have hl' := (List.mem_cons.mp ha').resolve_left fun he => hkey (he ▸ hka')
      exact h.searched.uniq a hl a' hl' hka hka'
    data := fun a ha hka => by
      have hl := (List.mem_cons.mp ha).resolve_left fun he => hkey (he ▸ hka)
      exact ⟨h.mem_doffs hl hka, (h.searched.data a hl hka).len⟩ }
  result := by
    rw [Store.lookup_cons, if_neg (show ((st.setPtr _ o).body o).key ≠ key from hkey)]
    exact h.result

end Store.Finds

/-- A record with another key is put in front of some chain. -/
theorem Store.Finds.setHead (h : st.Finds key' l r) {o : ℕ} (ho : o ∈ st.offs) (hle : o ≤ PTR_MAX)
    (hnot : o ∉ l) (hkey : (st.body o).key = key) (hne : key' ≠ key)
    (hptr : st.ptr o = st.ptr (cell (hashOf key))) :
    ∃ l', (st.setPtr (cell (hashOf key)) o).Finds key' l' r := by
  by_cases hhash : hashOf key' = hashOf key
  · rw [← hhash] at hptr ⊢
    exact ⟨o :: l, h.link ho hle hnot (fun he => hne (he.symm.trans hkey)) hptr⟩
  · refine ⟨l, h.setPtr hle (h.head_not_mem (cell_mem_heads (hashOf_lt key)) fun he => ?_)⟩
    exact hhash (cell_injective he.symm)

/-- An append leaves the answers to all other keys alone, wherever it stops. -/
theorem Appends.finds {log : List Store} {fin : Store} {done : Bool}
    (happ : Appends st (cell (hashOf key)) (st.ptr (cell (hashOf key))) key data log fin done)
    (hkey : KeyOk key) (hdata : ∀ c ∈ data, c ≠ 0) (hdlen : data.length + 1 ≤ DATLEN_MAX)
    (hne : key' ≠ key) (h : st.Finds key' l r) :
    ∀ st' ∈ log ++ [fin], ∃ l', st'.Finds key' l' r := by
  have h₁ := h.addDat hdata
  have hv := h.ok.ptr_le (cell (hashOf key))
  have h₂ : (st.newBody key data).text.length ≤ IDXLEN_MAX →
      ((st.addDat data).addRec (st.ptr (cell (hashOf key))) (st.newBody key data)).Finds key' l r :=
    fun hlen => h₁.addRec hv (Store.newBody_ok hkey hdlen hlen)
  cases happ with
  | short hshort => exact absurd hshort (not_lt.mpr (Store.newBody_min_le hkey.nonempty))
  | long hlong =>
    simp only [List.cons_append, List.nil_append, List.forall_mem_cons, List.not_mem_nil,
      false_implies, implies_true, and_true]
    exact ⟨⟨l, h⟩, l, h₁⟩
  | far hlen hfar =>
    simp only [List.cons_append, List.nil_append, List.forall_mem_cons, List.not_mem_nil,
      false_implies, implies_true, and_true]
    exact ⟨⟨l, h⟩, ⟨l, h₁⟩, l, h₂ hlen⟩
  | linked hlen hnear =>
    simp only [List.cons_append, List.nil_append, List.forall_mem_cons, List.not_mem_nil,
      false_implies, implies_true, and_true]
    refine ⟨⟨l, h⟩, ⟨l, h₁⟩, ⟨l, h₂ hlen⟩, ?_⟩
    have hnew : (st.addDat data).idxFile.length ∉ l := fun hmem =>
      h₁.ok.new_off (h₁.searched.mem _ hmem)
    have hcell : cell (hashOf key) ≠ (st.addDat data).idxFile.length := fun he => by
      have hlt := head_lt (cell_mem_heads (hashOf_lt key))
      have hge := h₁.ok.new_off_ge
      omega
    refine (h₂ hlen).setHead (List.mem_append_right _ List.mem_cons_self) hnear hnew ?_ hne ?_
    · simp only [Store.addRec]
      rw [show st.idxFile.length = (st.addDat data).idxFile.length from rfl, Function.update_self]
      rfl
    · exact (Function.update_self ..).trans (Function.update_of_ne hcell ..).symm

section Deleting

variable {files : Files} {chain : ℕ → List ℕ} {free pre rest : List ℕ} {o : ℕ}
variable (h : Resting files st chain free)
include h

theorem Resting.finds (key : List Byte) :
    st.Finds key (chain (hashOf key)) (st.lookup (chain (hashOf key)) key) :=
  ⟨h.ok, h.searched key, rfl⟩

variable (hchain : chain (hashOf key) = pre ++ o :: rest) (hkey : (st.body o).key = key)
include hchain

/-- The records before and behind `o` on its chain are other records. -/
theorem Resting.ne_of_chain {a : ℕ} (ha : a ∈ pre ++ rest) : a ≠ o := by
  have hnodup := (h.searched key).nodup
  rw [hchain] at hnodup
  exact ne_of_mem_of_not_mem ha (List.nodup_cons.mp (List.nodup_middle.mp hnodup)).1

theorem Resting.mem_other {a : ℕ} (ha : a ∈ pre ++ rest) : a ∈ st.offs := by
  refine (h.searched key).mem a ?_
  rw [hchain]
  rcases List.mem_append.mp ha with ha | ha
  · exact List.mem_append_left _ ha
  · exact List.mem_append_right _ (List.mem_cons_of_mem _ ha)

/-- The blanks go to no other data record. -/
theorem Resting.dat_dataWiped {a : ℕ} (ha : a ∈ st.offs) (hne : a ≠ o) :
    (st.dataWiped o).dat (st.body a).datoff = st.dat (st.body a).datoff :=
  Function.update_of_ne (fun he => hne (h.dat_inj a ha o (h.mem_of_chain hchain) he)) _ _

include hkey

omit hkey in
/-- When the deletion is finished the chain goes on behind the record. -/
theorem Resting.finds_unlinked_same (hhash : hashOf key' = hashOf key) :
    (st.unlinked o (lastCell (cell (hashOf key)) pre)).Finds key' (pre ++ rest)
      (st.lookup (pre ++ rest) key') := by
  have ho := h.mem_of_chain hchain
  have hs := h.searched key
  rw [hchain] at hs
  have hother : ∀ a ∈ pre ++ rest, a ∈ st.offs ∧ a ≠ o := fun a ha =>
    ⟨h.mem_other hchain ha, h.ne_of_chain hchain ha⟩
  have hbody : ∀ a ∈ pre ++ rest,
      (st.unlinked o (lastCell (cell (hashOf key)) pre)).body a = st.body a := fun a ha =>
    Function.update_of_ne (hother a ha).2 _ _
  have hnodup : (cell (hashOf key) :: (pre ++ o :: rest)).Nodup :=
    List.nodup_cons.mpr ⟨fun hmem => h.ok.ne_cell (hs.mem _ hmem) (hashOf_lt key) rfl, hs.nodup⟩
  -- off the record itself and the free list only the cell before the record has changed
  have hptr : ∀ a, a ≠ o → a ≠ FREE_OFF → (st.unlinked o (lastCell (cell (hashOf key)) pre)).ptr a =
      Function.update st.ptr (lastCell (cell (hashOf key)) pre) (st.ptr o) a := by
    intro a hne hfree
    by_cases hc : a = lastCell (cell (hashOf key)) pre
    · rw [hc, Function.update_self]
      exact Function.update_self ..
    · rw [Function.update_of_ne hc]
      refine (Function.update_of_ne hc ..).trans ?_
      exact (Function.update_of_ne hfree ..).trans (Function.update_of_ne hne ..)
  refine ⟨h.ok.unlinked ho (h.data o ho) (h.off_le ho) _, ⟨?_, ?_, ?_, ?_, ?_⟩, ?_⟩
  · rw [hhash]
    refine linked_congr (hptr _ (h.ok.ne_cell ho (hashOf_lt key)) (cell_ne_free _)) (fun a ha => ?_)
      (linked_remove hnodup hs.linked)
    exact hptr a (hother a ha).2 (h.ok.ne_free (hother a ha).1).symm
  · exact (List.nodup_cons.mp (List.nodup_middle.mp hs.nodup)).2
  · exact fun a ha => (hother a ha).1
  · intro a ha b hb hka hkb
    rw [hbody a ha] at hka
    rw [hbody b hb] at hkb
    have hin : a ∈ chain (hashOf key) := by
      rw [hchain]
      exact List.mem_append.mpr ((List.mem_append.mp ha).imp_right (List.mem_cons_of_mem _))
    exact h.key_injective a (hother a ha).1 b (hother b hb).1 (h.mem_chain_hash.mp hin).2.1
      (hka.trans hkb.symm)
  · intro a ha hka
    have hd := h.data a (hother a ha).1
    refine ⟨by rw [hbody a ha]; exact hd.mem, ?_⟩
    rw [hbody a ha]
    exact hd.len.trans (congrArg (List.length · + 1)
      (h.dat_dataWiped hchain (hother a ha).1 (hother a ha).2).symm)
  · refine Store.SameOn.lookup (fun a ha => ⟨hbody a ha, ?_⟩) key'
    exact h.dat_dataWiped hchain (hother a ha).1 (hother a ha).2

/-- The key of the record is not found behind or before it. -/
theorem Resting.lookup_own : st.lookup (pre ++ rest) key = none := by
  refine Store.lookup_eq_none fun a ha hka => h.ne_of_chain hchain ha ?_
  refine (h.searched key).uniq a ?_ o (hchain ▸ List.mem_append_right _ List.mem_cons_self) hka hkey
  rw [hchain]
  exact List.mem_append.mpr ((List.mem_append.mp ha).imp_right (List.mem_cons_of_mem _))

end Deleting

end Apue.Db
