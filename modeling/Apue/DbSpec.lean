import Apue.DbStore
import Apue.DbMachine

/-!
What the database is for. The operations on keys are those of a finite map,
and concurrent operations take effect in the order in which they lock their
hash chains. The layout of the two files between operations is stated here over
the bytes: it says which records there are and on which list each of them is.
-/
namespace Apue.Db

open Programs Decimal ByteFiles Pointers Threads

/-- The hash value of a key in a table of the default size. -/
def hashOf (key : List Byte) : ℕ := hashLoop key 1 0 % NHASH_DEF

theorem hashOf_lt (key : List Byte) : hashOf key < NHASH_DEF := Nat.mod_lt _ (by decide)

theorem dbHash_eq {db : DB} (hdb : db.Opened) (key : List Byte) : dbHash db key = hashOf key := by
  rw [dbHash, hdb.1, hashOf]

/-- The cell of a hash chain. -/
def cell (h : ℕ) : ℕ := h * PTR_SZ + HASH_OFF

/-- A deleted record has a key of blanks. -/
def Blank (key : List Byte) : Prop := ∀ c ∈ key, c = SPACE

instance (key : List Byte) : Decidable (Blank key) :=
  inferInstanceAs (Decidable (∀ c ∈ key, c = SPACE))

theorem all_space_iff (key : List Byte) : key.all (· = SPACE) = true ↔ Blank key := by
  simp only [List.all_eq_true, decide_eq_true_eq, Blank]

/-- A non-empty string without a separator that is not all blanks. -/
structure KeyOk (key : List Byte) : Prop where
  nonempty : key ≠ []
  plain : Body.Plain key
  nonblank : ¬ Blank key

instance (key : List Byte) : Decidable (KeyOk key) :=
  decidable_of_iff (key ≠ [] ∧ Body.Plain key ∧ ¬ Blank key)
    ⟨fun h => ⟨h.1, h.2.1, h.2.2⟩, fun h => ⟨h.nonempty, h.plain, h.nonblank⟩⟩

theorem keyOk_singleton {c : Byte} (hnul : c ≠ 0) (hsep : c ≠ SEP) (hspace : c ≠ SPACE) :
    KeyOk [c] where
  nonempty := List.cons_ne_nil c []
  plain := by simp [Body.Plain, hnul, hsep]
  nonblank := by simp [Blank, hspace]

def KeyOp.key : KeyOp → List Byte
  | .fetch key => key
  | .store key _ _ => key
  | .delete key => key

/-- The calls that the results here speak about: the key is proper, data is a
string and the flag is one of the three. -/
def KeyOp.Ok : KeyOp → Prop
  | .fetch key => KeyOk key
  | .store key data flag => KeyOk key ∧ (∀ c ∈ data, c ≠ 0) ∧
      (flag = DB_INSERT ∨ flag = DB_REPLACE ∨ flag = DB_STORE)
  | .delete key => KeyOk key

/-- A scan needs nothing. -/
def Op.Ok : Op → Prop
  | .keyed o => o.Ok
  | .rewind => True
  | .nextrec => True

theorem KeyOp.Ok.key {o : KeyOp} (h : o.Ok) : KeyOk o.key := by
  cases o with
  | fetch key => exact h
  | store key data flag => exact h.1
  | delete key => exact h

abbrev Map := List Byte → Option (List Byte)

/-- The operations on a finite map. -/
def mapOp : KeyOp → Map → Map × Res
  | .fetch key, m => (m, .data (m key))
  | .store key data flag, m =>
    match m key with
    | some _ =>
      if flag = DB_INSERT then (m, .code 1)
      else (Function.update m key (some data), .code 0)
    | none =>
      if flag = DB_REPLACE then (m, .code (-1))
      else (Function.update m key (some data), .code 0)
  | .delete key, m =>
    match m key with
    | some _ => (Function.update m key none, .code 0)
    | none => (m, .code (-1))

/-- An operation leaves every other key alone. -/
theorem mapOp_other (o : KeyOp) (m : Map) {key : List Byte} (h : key ≠ o.key) :
    (mapOp o m).1 key = m key := by
  cases o with
  | fetch k => rfl
  | store k data flag =>
    simp only [mapOp]
    split
    · split
      · rfl
      · exact Function.update_of_ne h _ _
    · split
      · rfl
      · exact Function.update_of_ne h _ _
  | delete k =>
    simp only [mapOp]
    split
    · exact Function.update_of_ne h _ _
    · rfl

/-- The answers of a finite map to operations one after the other. -/
def mapRun : Map → List KeyOp → List Res
  | _, [] => []
  | m, o :: ops => (mapOp o m).2 :: mapRun (mapOp o m).1 ops

theorem length_mapRun (m : Map) (ops : List KeyOp) : (mapRun m ops).length = ops.length := by
  induction ops generalizing m with
  | nil => rfl
  | cons o ops ih => simp only [mapRun, List.length_cons, ih]

section Serial

variable {P : Type}

/-- Operations of several processes one after the other on the empty map, with
the answer to each. -/
def serialRun (l : List (P × KeyOp)) : Map × List (P × KeyOp × Res) :=
  l.foldl (fun s a => ((mapOp a.2 s.1).1, s.2 ++ [(a.1, a.2, (mapOp a.2 s.1).2)]))
    (fun _ => none, [])

theorem serialRun_concat (l : List (P × KeyOp)) (a : P × KeyOp) :
    serialRun (l ++ [a]) = ((mapOp a.2 (serialRun l).1).1,
      (serialRun l).2 ++ [(a.1, a.2, (mapOp a.2 (serialRun l).1).2)]) := by
  simp only [serialRun, List.foldl_append, List.foldl_cons, List.foldl_nil]

/-- The answers in the serial run are those of the map. -/
theorem serialRun_answers (l : List (P × KeyOp)) :
    (serialRun l).2.map (fun a => a.2) =
      (l.map Prod.snd).zip (mapRun (fun _ => none) (l.map Prod.snd)) := by
  have hgen : ∀ (l : List (P × KeyOp)) (m : Map) (acc : List (P × KeyOp × Res)),
      (l.foldl (fun s a => ((mapOp a.2 s.1).1, s.2 ++ [(a.1, a.2, (mapOp a.2 s.1).2)]))
        (m, acc)).2.map (fun a => a.2) =
      acc.map (fun a => a.2) ++ (l.map Prod.snd).zip (mapRun m (l.map Prod.snd)) := by
    intro l
    induction l with
    | nil => exact fun m acc => (List.append_nil _).symm
    | cons a l ih =>
      intro m acc
      rw [List.foldl_cons, ih]
      simp only [List.map_append, List.map_cons, List.map_nil, List.append_assoc, mapRun,
        List.zip_cons_cons, List.cons_append, List.nil_append]
  exact hgen l _ []

theorem serialRun_results (l : List (P × KeyOp)) :
    (serialRun l).2.map (fun a => a.2.2) = mapRun (fun _ => none) (l.map Prod.snd) := by
  have hsnd := congrArg (List.map Prod.snd) (serialRun_answers l)
  rw [List.map_map, List.map_snd_zip (length_mapRun _ _).le] at hsnd
  exact hsnd

abbrev DbHist (P : Type) := Hist sig P Op Res (Shared P)

/-- The event in which an operation obtains the lock of its hash chain. -/
def lockEvent : Event sig P Op Res → Option (P × KeyOp)
  | .sys p (.keyed o) (.setlkw .idx _ start 1) => if start = FREE_OFF then none else some (p, o)
  | _ => none

theorem lockEvent_eq_some {e : Event sig P Op Res} {p : P} {o : KeyOp}
    (h : lockEvent e = some (p, o)) : ∃ c, e = .sys p (.keyed o) c := by
  unfold lockEvent at h
  split at h
  · split at h
    · cases h
    · obtain ⟨rfl, rfl⟩ := Prod.mk.inj (Option.some.inj h)
      exact ⟨_, rfl⟩
  · cases h

/-- The operations in the order in which they obtained their chain's lock. -/
def lockOrder (hist : DbHist P) : List (P × KeyOp) := hist.filterMap fun e => lockEvent e.1

theorem lockOrder_concat (hist : DbHist P) (e : Event sig P Op Res) (s : Shared P) :
    lockOrder (hist ++ [(e, s)]) = lockOrder hist ++ (lockEvent e).toList := by
  simp only [lockOrder, List.filterMap_append, List.filterMap_cons, List.filterMap_nil]
  cases lockEvent e <;> rfl

variable [DecidableEq P]

/-- The operations of process `p` on keys that have returned, with their answers. -/
def answers (hist : DbHist P) (p : P) : List (KeyOp × Res) :=
  hist.filterMap fun e => match e.1 with
    | .ret q (.keyed o) r => if q = p then some (o, r) else none
    | _ => none

/-- The answers that process `p` gets in the serial order. -/
def serialAnswers (l : List (P × KeyOp)) (p : P) : List (KeyOp × Res) :=
  (serialRun l).2.filterMap fun a => if a.1 = p then some a.2 else none

theorem serialAnswers_concat (l : List (P × KeyOp)) (q : P) (o : KeyOp) (p : P) :
    serialAnswers (l ++ [(q, o)]) p = serialAnswers l p ++
      if q = p then [(o, (mapOp o (serialRun l).1).2)] else [] := by
  simp only [serialAnswers, serialRun_concat, List.filterMap_append, List.filterMap_cons,
    List.filterMap_nil]
  split_ifs <;> rfl

theorem answers_concat (hist : DbHist P) (e : Event sig P Op Res) (s : Shared P) (p : P) :
    answers (hist ++ [(e, s)]) p = answers hist p ++ match e with
      | .ret q (.keyed o) r => if q = p then [(o, r)] else []
      | _ => [] := by
  simp only [answers, List.filterMap_append, List.filterMap_cons, List.filterMap_nil]
  congr 1
  cases e with
  | ret q o r =>
    cases o with
    | keyed o =>
      simp only
      split_ifs <;> rfl
    | rewind => rfl
    | nextrec => rfl
  | call q o => rfl
  | sys q o c => rfl
  | exit q o => rfl

end Serial

/-- The files hold the store `st`, whose records are on the hash chains `chain`
and the free list `free`. -/
structure LayoutOf (files : Files) (st : Store) (chain : ℕ → List ℕ) (free : List ℕ) :
    Prop where
  /-- The table, a newline, and the index records one after the other, each with
  its true length in the length field; likewise the data records. -/
  text : files = st.files
  ok : st.Ok
  inside : ∀ o ∈ st.offs, (st.body o).datoff + (st.body o).datlen ≤ files.dat.length
  newline : ∀ o ∈ st.offs,
    files.dat[(st.body o).datoff + (st.body o).datlen - 1]? = some NEWLINE
  disjoint : ∀ o ∈ st.offs, ∀ a ∈ st.offs, o ≠ a →
    (st.body o).datoff + (st.body o).datlen ≤ (st.body a).datoff ∨
      (st.body a).datoff + (st.body a).datlen ≤ (st.body o).datoff
  cover : ∀ i < files.dat.length, ∃ o ∈ st.offs,
    (st.body o).datoff ≤ i ∧ i < (st.body o).datoff + (st.body o).datlen
  mem_chain : ∀ h < NHASH_DEF, ∀ o, o ∈ chain h ↔
    o ∈ st.offs ∧ ¬ Blank (st.body o).key ∧ hashOf (st.body o).key = h
  mem_free : ∀ o, o ∈ free ↔ o ∈ st.offs ∧ Blank (st.body o).key
  nodup_chain : ∀ h < NHASH_DEF, (chain h).Nodup
  nodup_free : free.Nodup
  linked_chain : ∀ h < NHASH_DEF, Linked st.ptr (cell h) (chain h)
  linked_free : Linked st.ptr FREE_OFF free
  key_injective : ∀ o ∈ st.offs, ∀ a ∈ st.offs, ¬ Blank (st.body o).key →
    (st.body o).key = (st.body a).key → o = a

/-- The layout of the files between operations. -/
def Layout (files : Files) : Prop := ∃ st chain free, LayoutOf files st chain free

end Apue.Db
