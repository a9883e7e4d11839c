import Apue.Ftw

/-!
The calls of the walk are the preorder traversal of the tree, up to the first one that does
not return zero. A level finds its own pathname at the start of the buffer after each descent,
because a descent changes what stands behind the pathname it was made from and nothing
before it.
-/
namespace Apue.Ftw

open Decimal Buffers

mutual

/-- A tree of files: one that cannot be stat'ed, one that is no directory, a directory that
cannot be opened, and one with entries. -/
inductive Tree (Stat : Type)
  | unstatable
  | other (status : Stat)
  | unopenable (status : Stat)
  | dir (status : Stat) (entries : Entries Stat)

inductive Entries (Stat : Type)
  | nil
  | cons (name : Path) (tree : Tree Stat) (rest : Entries Stat)

end

section

variable {Stat : Type}

mutual

/-- The calls for a tree, whose top has a pathname. -/
def Tree.preorder : Tree Stat → Path → List (Call Stat)
  | .unstatable, path => [⟨path, none, .FTW_NS⟩]
  | .other status, path => [⟨path, some status, .FTW_F⟩]
  | .unopenable status, path =>
    [⟨path, some status, .FTW_D⟩, ⟨path ++ [slash], some status, .FTW_DNR⟩]
  | .dir status es, path => ⟨path, some status, .FTW_D⟩ :: es.preorder path

def Entries.preorder : Entries Stat → Path → List (Call Stat)
  | .nil, _ => []
  | .cons name tree rest, path =>
    tree.preorder (path ++ slash :: name) ++ rest.preorder path

end

mutual

def Tree.height : Tree Stat → ℕ
  | .dir _ es => es.height + 1
  | _ => 0

def Entries.height : Entries Stat → ℕ
  | .nil => 0
  | .cons _ tree rest => max tree.height rest.height

end

def Entries.names : Entries Stat → List Path
  | .nil => []
  | .cons name _ rest => name :: rest.names

mutual

/-- No name in the tree has more than NAME_MAX bytes. -/
def Tree.Short : Tree Stat → Prop
  | .dir _ es => es.Short
  | _ => True

def Entries.Short : Entries Stat → Prop
  | .nil => True
  | .cons name tree rest => name.length ≤ NAME_MAX ∧ tree.Short ∧ rest.Short

end

/-- The entries of a directory are what readdir returns without dot and dot-dot. -/
def isEntry (name : Path) : Bool := !(name == dot || name == dotDot)

mutual

/-- The tree is what the system has at a pathname. -/
def Tree.At (fs : FileSystem Stat) : Tree Stat → Path → Prop
  | .unstatable, path => fs.lstat path = none
  | .other status, path => fs.lstat path = some status ∧ fs.isDir status = false
  | .unopenable status, path =>
    fs.lstat path = some status ∧ fs.isDir status = true ∧ fs.opendir (path ++ [slash]) = none
  | .dir status es, path =>
    fs.lstat path = some status ∧ fs.isDir status = true ∧
      (∃ names, fs.opendir (path ++ [slash]) = some names ∧ names.filter isEntry = es.names) ∧
      es.At fs path

def Entries.At (fs : FileSystem Stat) : Entries Stat → Path → Prop
  | .nil, _ => True
  | .cons name tree rest, path => tree.At fs (path ++ slash :: name) ∧ rest.At fs path

end

end

/-- The calls from a list up to the first one that does not return zero, after those that were
made `before`, and what the last one returned. -/
def callsUntil {α : Type} (func : List α → ℤ) (before : List α) : List α → ℤ × List α
  | [] => (0, before)
  | c :: cs =>
    if func (before ++ [c]) ≠ 0 then (func (before ++ [c]), before ++ [c])
    else callsUntil func (before ++ [c]) cs

theorem callsUntil_append_of_ne {α : Type} {func : List α → ℤ} {before cs : List α}
    (h : (callsUntil func before cs).1 ≠ 0) (ds : List α) :
    callsUntil func before (cs ++ ds) = callsUntil func before cs := by
  induction cs generalizing before with
  | nil => exact absurd rfl h
  | cons c cs ih =>
    unfold callsUntil at h
    simp only [List.cons_append, callsUntil]
    by_cases hc : func (before ++ [c]) ≠ 0
    · rw [if_pos hc, if_pos hc]
    · simp only [if_neg hc] at h ⊢
      exact ih h

theorem callsUntil_append_of_eq {α : Type} {func : List α → ℤ} {before cs : List α}
    (h : (callsUntil func before cs).1 = 0) (ds : List α) :
    callsUntil func before (cs ++ ds) = callsUntil func (callsUntil func before cs).2 ds := by
  induction cs generalizing before with
  | nil => rfl
  | cons c cs ih =>
    unfold callsUntil at h
    simp only [List.cons_append, callsUntil]
    by_cases hc : func (before ++ [c]) ≠ 0
    · rw [if_pos hc] at h
      exact absurd h hc
    · simp only [if_neg hc] at h ⊢
      exact ih h

theorem callsUntil_singleton {α : Type} (func : List α → ℤ) (before : List α) (c : α) :
    callsUntil func before [c] = (func (before ++ [c]), before ++ [c]) := by
  unfold callsUntil
  by_cases hc : func (before ++ [c]) ≠ 0
  · rw [if_pos hc]
  · rw [if_neg hc, not_not.mp hc]
    rfl

theorem cstring_eq {buf : Buffer Byte} {path : Path} (h : buf.Holds 0 (path ++ [0]))
    (hpath : 0 ∉ path) : cstring buf = some path :=
  h.takeWhile (fun v hv => by
    have hne : v ≠ 0 := fun hzero => hpath (hzero ▸ hv)
    simpa using hne) rfl

/-- A string that was stored behind a text is held behind it. -/
theorem strcpy_eq_some {buf buf' : Buffer Byte} {text name : Path} (h : buf.Holds 0 text)
    (hcopy : strcpy buf text.length name = some buf') :
    buf'.size = buf.size ∧ buf'.Holds 0 (text ++ name ++ [0]) := by
  unfold strcpy at hcopy
  split at hcopy
  · rename_i hfits
    obtain rfl := Option.some.inj hcopy
    have hlen : text.length + (name ++ [0]).length ≤ buf.size := by
      rw [List.length_append, List.length_singleton]
      omega
    refine ⟨rfl, ?_⟩
    rw [List.append_assoc]
    refine Buffer.holds_append.mpr ⟨h.write_before _ (by omega), ?_⟩
    rw [Nat.zero_add]
    exact Buffer.write_holds hlen
  · exact absurd hcopy nofun

/-- A byte that is set behind a text is held behind it. -/
theorem holds_set {buf buf' : Buffer Byte} {text : Path} {v : Byte} (h : buf.Holds 0 text)
    (hset : buf.set text.length v = some buf') :
    buf'.size = buf.size ∧ buf'.Holds 0 (text ++ [v]) := by
  have hlt : text.length < buf.size := by
    by_contra hge
    unfold Buffer.set at hset
    rw [if_neg hge] at hset
    exact absurd hset nofun
  obtain ⟨b, hb, hsize, hget, hother⟩ := Buffer.set_eq_some (b := buf) (v := v) hlt
  obtain rfl := Option.some.inj (hset.symm.trans hb)
  refine ⟨hsize, Buffer.holds_append.mpr ⟨h.congr fun j _ hj => hother j (by omega), ?_⟩⟩
  rw [Nat.zero_add]
  exact ⟨hget, trivial⟩

end Apue.Ftw
