import Apue.DbReads

/-!
The two files of a database as the text of a store of records. A store gives
the pointer in every cell, the index records and the data records by their
offsets, in file order. Each write of the library corresponds to one of five
updates of the store, and a cell, an index record or a data record of the store
stands in the files at its own offset.
-/
namespace Apue.Db

open Programs Decimal ByteFiles Pointers

/-- The pointer cells before the records: the free list and the hash chains. -/
def heads : List ℕ := List.range' 0 (NHASH_DEF + 1) PTR_SZ

/-- `offs` and `doffs` are the offsets of the records of the two files. -/
structure Store where
  ptr : ℕ → ℕ
  offs : List ℕ
  body : ℕ → Body
  doffs : List ℕ
  dat : ℕ → List Byte

namespace Store

def recBlock (st : Store) (o : ℕ) : List Byte := recText (st.ptr o) (st.body o)

def datBlock (st : Store) (d : ℕ) : List Byte := st.dat d ++ [NEWLINE]

def table (st : Store) : List Byte := heads.flatMap (fun c => ptrText (st.ptr c)) ++ [NEWLINE]

def idxFile (st : Store) : List Byte := st.table ++ st.offs.flatMap st.recBlock

def datFile (st : Store) : List Byte := st.doffs.flatMap st.datBlock

/-- The text of the store. -/
def files (st : Store) : Files := ⟨st.idxFile, st.datFile⟩

/-- The pointers fit their columns, and every index record starts where the one
before it ends. -/
structure Sized (st : Store) : Prop where
  ptr_le : ∀ c, st.ptr c ≤ PTR_MAX
  placed : Placed (fun o => (st.recBlock o).length) 967 st.offs

/-- The numbers fit their columns, the keys and data are strings, and every
record starts where the one before it ends. -/
structure Ok (st : Store) : Prop extends Sized st where
  body_ok : ∀ o ∈ st.offs, (st.body o).Ok
  dat_ok : ∀ d ∈ st.doffs, ∀ c ∈ st.dat d, c ≠ 0
  dplaced : Placed (fun d => (st.datBlock d).length) 0 st.doffs

def IsCell (st : Store) (c : ℕ) : Prop := c ∈ heads ∨ c ∈ st.offs

def setPtr (st : Store) (c v : ℕ) : Store := { st with ptr := Function.update st.ptr c v }

def setRec (st : Store) (o v : ℕ) (b : Body) : Store :=
  { st with ptr := Function.update st.ptr o v, body := Function.update st.body o b }

def setDat (st : Store) (d : ℕ) (data : List Byte) : Store :=
  { st with dat := Function.update st.dat d data }

/-- A new record at the end of the index file. -/
def addRec (st : Store) (v : ℕ) (b : Body) : Store :=
  { st with
    offs := st.offs ++ [st.idxFile.length]
    ptr := Function.update st.ptr st.idxFile.length v
    body := Function.update st.body st.idxFile.length b }

/-- A new record at the end of the data file. -/
def addDat (st : Store) (data : List Byte) : Store :=
  { st with
    doffs := st.doffs ++ [st.datFile.length]
    dat := Function.update st.dat st.datFile.length data }

/-- The store that db_open creates. -/
def empty : Store := ⟨fun _ => 0, [], fun _ => ⟨[], 0, 0⟩, [], fun _ => []⟩

end Store

private theorem placed_range' (step start n : ℕ) :
    Placed (fun _ => step) start (List.range' start n step) := by
  induction n generalizing start with
  | zero => trivial
  | succ n ih => exact ⟨rfl, ih (start + step)⟩

theorem mem_heads {c : ℕ} : c ∈ heads ↔ ∃ i < NHASH_DEF + 1, c = i * PTR_SZ := by
  simp only [heads, List.mem_range', Nat.zero_add, Nat.mul_comm]

theorem nodup_heads : heads.Nodup := by decide +kernel

theorem head_lt {c : ℕ} (hc : c ∈ heads) : c < 966 := by
  obtain ⟨i, hi, rfl⟩ := mem_heads.mp hc
  simp only [NHASH_DEF, PTR_SZ] at *
  omega

namespace Store

variable {st : Store}

theorem placed_heads (hle : ∀ c, st.ptr c ≤ PTR_MAX) :
    Placed (fun c => (ptrText (st.ptr c)).length) ([] : List Byte).length heads :=
  placed_congr (fun c _ => length_ptrText (hle c)) (placed_range' PTR_SZ 0 _)

theorem length_table (hle : ∀ c, st.ptr c ≤ PTR_MAX) : st.table.length = 967 := by
  have hend := endOf_flatMap (fun c => ptrText (st.ptr c)) 0 heads
  have hsize : endOf (fun c => (ptrText (st.ptr c)).length) 0 heads =
      endOf (fun _ => PTR_SZ) 0 heads := endOf_congr fun c _ => length_ptrText (hle c)
  rw [hsize] at hend
  rw [table, List.length_append, List.length_singleton]
  have hnum : endOf (fun _ => PTR_SZ) 0 heads = 966 := by decide +kernel
  omega

namespace Sized

theorem placed_table (h : st.Sized) :
    Placed (fun o => (st.recBlock o).length) st.table.length st.offs := by
  rw [length_table h.ptr_le]
  exact h.placed

theorem nodup_offs (h : st.Sized) : st.offs.Nodup := by
  refine placed_nodup (fun o => ?_) h.placed
  simp only [recBlock, recText, recHead, List.length_append, length_ptrText (h.ptr_le o), PTR_SZ]
  omega

theorem not_head (h : st.Sized) {o : ℕ} (ho : o ∈ st.offs) : o ∉ heads := by
  intro hh
  have h₁ := (placed_bounds h.placed ho).1
  have h₂ := head_lt hh
  omega

end Sized

namespace Ok

theorem length_recBlock (h : st.Ok) {o : ℕ} (ho : o ∈ st.offs) :
    (st.recBlock o).length = PTR_SZ + IDXLEN_SZ + (st.body o).text.length :=
  length_recText (h.ptr_le o) (h.body_ok o ho).le_max

theorem length_idxFile (h : st.Ok) :
    st.idxFile.length = endOf (fun o => (st.recBlock o).length) 967 st.offs := by
  rw [endOf_flatMap, idxFile, List.length_append, length_table h.ptr_le]

theorem length_datFile : st.datFile.length = endOf (fun d => (st.datBlock d).length) 0 st.doffs := by
  rw [endOf_flatMap, datFile, Nat.zero_add]

theorem off_bounds (h : st.Ok) {o : ℕ} (ho : o ∈ st.offs) :
    967 ≤ o ∧ o + (PTR_SZ + IDXLEN_SZ + (st.body o).text.length) ≤ st.idxFile.length := by
  have hb := placed_bounds h.placed ho
  rw [← h.length_idxFile, h.length_recBlock ho] at hb
  exact hb

theorem off_lt (h : st.Ok) {o : ℕ} (ho : o ∈ st.offs) : o < st.idxFile.length := by
  have := (h.off_bounds ho).2
  simp only [PTR_SZ] at this
  omega

theorem doff_lt (h : st.Ok) {d : ℕ} (hd : d ∈ st.doffs) : d < st.datFile.length := by
  have hb := (placed_bounds h.dplaced hd).2
  rw [← length_datFile] at hb
  simp only [datBlock, List.length_append, List.length_singleton] at hb
  omega

theorem sorted_offs (h : st.Ok) : st.offs.Pairwise (· < ·) :=
  (placed_pairwise h.placed).imp_of_mem fun {a b} ha _ hab => by
    rw [h.length_recBlock ha] at hab
    simp only [PTR_SZ] at hab
    omega

theorem nodup_doffs (h : st.Ok) : st.doffs.Nodup :=
  placed_nodup (fun d => by simp [datBlock]) h.dplaced

/-- A pointer stands at the front of its cell. -/
theorem contains_ptr (h : st.Ok) {c : ℕ} (hc : st.IsCell c) :
    Contains st.idxFile c (ptrText (st.ptr c)) := by
  rcases hc with hc | hc
  · have := contains_block [] ([NEWLINE] ++ st.offs.flatMap st.recBlock)
      (placed_heads h.ptr_le) hc
    simpa only [idxFile, table, List.nil_append, List.append_assoc] using this
  · have := contains_block _ [] h.placed_table hc
    rw [List.append_nil] at this
    rw [recBlock, recText, recHead, List.append_assoc, ← List.nil_append (ptrText _)] at this
    exact Contains.inside (a := []) this

theorem contains_rec (h : st.Ok) {o : ℕ} (ho : o ∈ st.offs) :
    Contains st.idxFile o (st.recBlock o) := by
  have := contains_block _ [] h.placed_table ho
  rwa [List.append_nil] at this

theorem contains_head (h : st.Ok) {o : ℕ} (ho : o ∈ st.offs) :
    Contains st.idxFile o (recHead (st.ptr o) (st.body o)) := by
  have := h.contains_rec ho
  rw [recBlock, recText, ← List.nil_append (recHead _ _)] at this
  exact Contains.inside (a := []) this

theorem contains_text (h : st.Ok) {o : ℕ} (ho : o ∈ st.offs) :
    Contains st.idxFile (o + (PTR_SZ + IDXLEN_SZ)) (st.body o).text := by
  have := h.contains_rec ho
  rw [recBlock, recText, ← List.append_nil (recHead _ _ ++ _)] at this
  have hin := Contains.inside this
  rwa [length_recHead (h.ptr_le o) (h.body_ok o ho).le_max] at hin

theorem contains_dat (h : st.Ok) {d : ℕ} (hd : d ∈ st.doffs) :
    Contains st.datFile d (st.dat d ++ [NEWLINE]) := by
  have := contains_block [] [] h.dplaced hd
  rwa [List.nil_append, List.append_nil] at this

end Ok

theorem empty_ok : empty.Ok where
  ptr_le _ := Nat.zero_le _
  body_ok _ ho := absurd ho List.not_mem_nil
  dat_ok _ hd := absurd hd List.not_mem_nil
  placed := trivial
  dplaced := trivial

theorem empty_files : empty.files = ⟨emptyTable, []⟩ := by decide +kernel

/-!
The five updates. Each keeps the store well formed and is what one write makes
of its text.
-/

section Updates

variable {c o d v : ℕ} {b : Body} {data : List Byte}

theorem recBlock_setPtr_of_ne (h : o ≠ c) : (st.setPtr c v).recBlock o = st.recBlock o := by
  simp only [recBlock, setPtr, Function.update_of_ne h]

theorem recBlock_setRec_of_ne {a : ℕ} (h : a ≠ o) :
    (st.setRec o v b).recBlock a = st.recBlock a := by
  simp only [recBlock, setRec, Function.update_of_ne h]

theorem recBlock_setRec : (st.setRec o v b).recBlock o = recText v b := by
  simp only [recBlock, setRec, Function.update_self]

theorem datBlock_setDat_of_ne {a : ℕ} (h : a ≠ d) :
    (st.setDat d data).datBlock a = st.datBlock a := by
  simp only [datBlock, setDat, Function.update_of_ne h]

theorem datBlock_setDat : (st.setDat d data).datBlock d = data ++ [NEWLINE] := by
  simp only [datBlock, setDat, Function.update_self]

/-- Cells of the hash table are not touched by a write to another place. -/
theorem table_congr {st' : Store} (h : ∀ c ∈ heads, st'.ptr c = st.ptr c) :
    st'.table = st.table := by
  simp only [table]
  congr 1
  exact List.flatMap_congr fun c hc => by rw [h c hc]

private theorem ptr_le_update (h : ∀ c, st.ptr c ≤ PTR_MAX) (hv : v ≤ PTR_MAX) (a : ℕ) :
    Function.update st.ptr c v a ≤ PTR_MAX := by
  by_cases ha : a = c
  · rw [ha, Function.update_self]
    exact hv
  · rw [Function.update_of_ne ha]
    exact h a

theorem Ok.setPtr (h : st.Ok) (hv : v ≤ PTR_MAX) : (st.setPtr c v).Ok where
  ptr_le := ptr_le_update h.ptr_le hv
  body_ok := h.body_ok
  dat_ok := h.dat_ok
  placed := by
    refine placed_congr (fun a ha => ?_) h.placed
    have hlen := length_recText (ptr_le_update (c := c) h.ptr_le hv a) (h.body_ok a ha).le_max
    exact hlen.trans (h.length_recBlock ha).symm
  dplaced := h.dplaced

theorem Sized.write_setPtr (h : st.Sized) (hv : v ≤ PTR_MAX) (hc : st.IsCell c) :
    writeAt st.idxFile c (ptrText v) = (st.setPtr c v).idxFile := by
  have hlen : (ptrText v).length = (ptrText (st.ptr c)).length := by
    rw [length_ptrText hv, length_ptrText (h.ptr_le c)]
  rcases hc with hc | hc
  · have hrecs : st.offs.flatMap (st.setPtr c v).recBlock = st.offs.flatMap st.recBlock :=
      List.flatMap_congr fun a ha => recBlock_setPtr_of_ne fun he => h.not_head ha (he ▸ hc)
    have hw := writeAt_placed (fun a => ptrText ((st.setPtr c v).ptr a)) []
      ([NEWLINE] ++ st.offs.flatMap st.recBlock) (ptrText v)
      nodup_heads (placed_heads h.ptr_le) hc [] (List.append_nil _).symm
      (by simp only [Store.setPtr, Function.update_self, List.append_nil]) hlen
      (fun a _ ha => by simp only [Store.setPtr, Function.update_of_ne ha])
    simp only [List.nil_append, ← List.append_assoc] at hw
    simp only [idxFile, table, hw]
    exact congrArg _ hrecs.symm
  · have htable : (st.setPtr c v).table = st.table :=
      table_congr fun a ha => Function.update_of_ne (fun he : a = c => h.not_head hc (he ▸ ha)) _ _
    have hw := writeAt_placed (st.setPtr c v).recBlock _ []
      (ptrText v) h.nodup_offs h.placed_table hc _
      (show st.recBlock c = ptrText (st.ptr c) ++
        (padLeft IDXLEN_SZ (decimal (st.body c).text.length) ++ (st.body c).text) by
          rw [recBlock, recText, recHead, List.append_assoc])
      (by simp only [recBlock, recText, recHead, Store.setPtr, Function.update_self,
        List.append_assoc]) hlen
      (fun a _ ha => recBlock_setPtr_of_ne ha)
    rw [List.append_nil, List.append_nil] at hw
    rw [idxFile, hw, idxFile, htable]
    rfl

theorem Ok.setRec_sized (h : st.Ok) (ho : o ∈ st.offs) (hv : v ≤ PTR_MAX)
    (hlen : b.text.length = (st.body o).text.length) : (st.setRec o v b).Sized where
  ptr_le := ptr_le_update h.ptr_le hv
  placed := by
    refine placed_congr (fun a ha => ?_) h.placed
    by_cases he : a = o
    · subst he
      rw [recBlock_setRec, length_recText hv (hlen.trans_le (h.body_ok a ho).le_max),
        h.length_recBlock ho, hlen]
    · rw [recBlock_setRec_of_ne he]

theorem Ok.setRec (h : st.Ok) (ho : o ∈ st.offs) (hv : v ≤ PTR_MAX) (hb : b.Ok)
    (hlen : b.text.length = (st.body o).text.length) : (st.setRec o v b).Ok where
  toSized := h.setRec_sized ho hv hlen
  body_ok := by
    intro a ha
    by_cases he : a = o
    · subst he
      simpa only [Store.setRec, Function.update_self] using hb
    · simpa only [Store.setRec, Function.update_of_ne he] using h.body_ok a ha
  dat_ok := h.dat_ok
  dplaced := h.dplaced

theorem Ok.write_setRec (h : st.Ok) (ho : o ∈ st.offs) (hv : v ≤ PTR_MAX)
    (hlen : b.text.length = (st.body o).text.length) :
    writeAt st.idxFile o (recText v b) = (st.setRec o v b).idxFile := by
  have htable : (st.setRec o v b).table = st.table :=
    table_congr fun a ha => Function.update_of_ne (fun he : a = o => h.not_head ho (he ▸ ha)) _ _
  have hw := writeAt_placed (st.setRec o v b).recBlock _ []
    (recText v b) h.nodup_offs h.placed_table ho [] (List.append_nil _).symm
    (by rw [recBlock_setRec, List.append_nil])
    (by rw [length_recText hv (hlen.trans_le (h.body_ok o ho).le_max), h.length_recBlock ho, hlen])
    (fun a _ ha => recBlock_setRec_of_ne ha)
  rw [List.append_nil, List.append_nil] at hw
  rw [idxFile, hw, idxFile, htable]
  rfl

theorem Ok.setDat (h : st.Ok) (hd : d ∈ st.doffs) (hdata : ∀ c ∈ data, c ≠ 0)
    (hlen : data.length = (st.dat d).length) : (st.setDat d data).Ok where
  ptr_le := h.ptr_le
  body_ok := h.body_ok
  dat_ok := by
    intro a ha
    by_cases he : a = d
    · subst he
      simpa only [Store.setDat, Function.update_self] using hdata
    · simpa only [Store.setDat, Function.update_of_ne he] using h.dat_ok a ha
  placed := h.placed
  dplaced := by
    refine placed_congr (fun a ha => ?_) h.dplaced
    by_cases he : a = d
    · subst he
      rw [datBlock_setDat]
      simp only [datBlock, List.length_append, hlen]
    · rw [datBlock_setDat_of_ne he]

theorem Ok.write_setDat (h : st.Ok) (hd : d ∈ st.doffs)
    (hlen : data.length = (st.dat d).length) :
    writeAt st.datFile d (data ++ [NEWLINE]) = (st.setDat d data).datFile := by
  have hw := writeAt_placed (st.setDat d data).datBlock [] []
    (data ++ [NEWLINE]) h.nodup_doffs h.dplaced hd [] (List.append_nil _).symm
    (by rw [datBlock_setDat, List.append_nil])
    (by simp only [datBlock, List.length_append, hlen])
    (fun a _ ha => datBlock_setDat_of_ne ha)
  rwa [List.nil_append, List.append_nil, List.nil_append, List.append_nil] at hw

theorem Ok.new_off (h : st.Ok) : st.idxFile.length ∉ st.offs := fun ho => by
  have := h.off_lt ho
  omega

theorem Ok.new_off_ge (h : st.Ok) : 967 ≤ st.idxFile.length := by
  rw [h.length_idxFile]
  exact Nat.le_add_right _ _

theorem Ok.new_doff (h : st.Ok) : st.datFile.length ∉ st.doffs := fun hd => by
  have := h.doff_lt hd
  omega

theorem Ok.ne_new_off (h : st.Ok) {a : ℕ} (ha : a ∈ st.offs) : a ≠ st.idxFile.length :=
  fun he => h.new_off (he ▸ ha)

theorem recBlock_addRec_of_ne {a : ℕ} (h : a ≠ st.idxFile.length) :
    (st.addRec v b).recBlock a = st.recBlock a := by
  simp only [recBlock, addRec, Function.update_of_ne h]

theorem recBlock_addRec : (st.addRec v b).recBlock st.idxFile.length = recText v b := by
  simp only [recBlock, addRec, Function.update_self]

theorem Ok.addRec_sized (h : st.Ok) (hv : v ≤ PTR_MAX) : (st.addRec v b).Sized where
  ptr_le := ptr_le_update h.ptr_le hv
  placed := by
    have hsize : ∀ a ∈ st.offs, ((st.addRec v b).recBlock a).length = (st.recBlock a).length :=
      fun a ha => by rw [recBlock_addRec_of_ne (h.ne_new_off ha)]
    refine placed_append.mpr ⟨placed_congr hsize h.placed, ?_, trivial⟩
    rw [endOf_congr hsize, h.length_idxFile]

theorem Ok.addRec (h : st.Ok) (hv : v ≤ PTR_MAX) (hb : b.Ok) : (st.addRec v b).Ok where
  toSized := h.addRec_sized hv
  body_ok := by
    intro a ha
    rcases List.mem_append.mp ha with ha | ha
    · simpa only [Store.addRec, Function.update_of_ne (h.ne_new_off ha)] using h.body_ok a ha
    · obtain rfl := List.mem_singleton.mp ha
      simpa only [Store.addRec, Function.update_self] using hb
  dat_ok := h.dat_ok
  dplaced := h.dplaced

theorem Ok.write_addRec (h : st.Ok) :
    writeAt st.idxFile st.idxFile.length (recText v b) = (st.addRec v b).idxFile := by
  have htable : (st.addRec v b).table = st.table := by
    refine table_congr fun a ha => Function.update_of_ne (fun he => ?_) _ _
    have h₁ := head_lt ha
    have h₂ := h.new_off_ge
    omega
  have hrecs : st.offs.flatMap (st.addRec v b).recBlock = st.offs.flatMap st.recBlock :=
    List.flatMap_congr fun a ha => recBlock_addRec_of_ne (h.ne_new_off ha)
  rw [writeAt_end]
  conv_rhs => rw [idxFile, htable]
  simp only [show (st.addRec v b).offs = st.offs ++ [st.idxFile.length] from rfl,
    List.flatMap_append, hrecs, List.flatMap_singleton, recBlock_addRec]
  rw [← List.append_assoc]
  rfl

theorem datBlock_addDat_of_ne {a : ℕ} (h : a ≠ st.datFile.length) :
    (st.addDat data).datBlock a = st.datBlock a := by
  simp only [datBlock, addDat, Function.update_of_ne h]

theorem datBlock_addDat : (st.addDat data).datBlock st.datFile.length = data ++ [NEWLINE] := by
  simp only [datBlock, addDat, Function.update_self]

theorem Ok.ne_new_doff (h : st.Ok) {a : ℕ} (ha : a ∈ st.doffs) : a ≠ st.datFile.length :=
  fun he => h.new_doff (he ▸ ha)

theorem Ok.addDat (h : st.Ok) (hdata : ∀ c ∈ data, c ≠ 0) : (st.addDat data).Ok where
  ptr_le := h.ptr_le
  body_ok := h.body_ok
  dat_ok := by
    intro a ha
    rcases List.mem_append.mp ha with ha | ha
    · simpa only [Store.addDat, Function.update_of_ne (h.ne_new_doff ha)] using h.dat_ok a ha
    · obtain rfl := List.mem_singleton.mp ha
      simpa only [Store.addDat, Function.update_self] using hdata
  placed := h.placed
  dplaced := by
    have hsize : ∀ a ∈ st.doffs, ((st.addDat data).datBlock a).length = (st.datBlock a).length :=
      fun a ha => by rw [datBlock_addDat_of_ne (h.ne_new_doff ha)]
    refine placed_append.mpr ⟨placed_congr hsize h.dplaced, ?_, trivial⟩
    rw [endOf_congr hsize, Ok.length_datFile]

theorem Ok.write_addDat (h : st.Ok) :
    writeAt st.datFile st.datFile.length (data ++ [NEWLINE]) = (st.addDat data).datFile := by
  have hrecs : st.doffs.flatMap (st.addDat data).datBlock = st.doffs.flatMap st.datBlock :=
    List.flatMap_congr fun a ha => datBlock_addDat_of_ne (h.ne_new_doff ha)
  rw [writeAt_end]
  conv_rhs => rw [datFile]
  simp only [show (st.addDat data).doffs = st.doffs ++ [st.datFile.length] from rfl,
    List.flatMap_append, hrecs, List.flatMap_singleton, datBlock_addDat]
  rfl

end Updates

end Store

end Apue.Db
