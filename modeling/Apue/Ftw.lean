import Apue.Buffers
import Apue.Decimal

/-!
A walk through a file hierarchy. All levels of the walk share the buffer that holds the
pathname: a level appends a slash and a name, descends, and cuts the pathname off again.
What lstat, opendir and readdir say of a pathname is a parameter. The functions follow
ftw8.c and pathalloc.c.
-/
namespace Apue.Ftw

open Decimal Buffers

abbrev Path := List Byte

def NAME_MAX : ℕ := 255

def INT_MAX : ℕ := 2 ^ 31 - 1

def slash : Byte := 47

def dot : Path := [46]

def dotDot : Path := [46, 46]

/-- The types that the caller's function is called with. -/
inductive FileType
  | FTW_F
  | FTW_D
  | FTW_DNR
  | FTW_NS
  deriving DecidableEq

/-- A call of the caller's function. After a failed lstat there is no status. -/
structure Call (Stat : Type) where
  path : Path
  status : Option Stat
  type : FileType
  deriving DecidableEq

/-- What the system says of a pathname; it does not change during the walk. The names that
readdir returns are strings, and lstat fails for a pathname whose length is no int. -/
structure FileSystem (Stat : Type) where
  lstat : Path → Option Stat
  isDir : Stat → Bool
  opendir : Path → Option (List Path)
  lstat_long : ∀ path, INT_MAX < path.length + NAME_MAX + 2 → lstat path = none
  readdir_string : ∀ path names, opendir path = some names → ∀ name ∈ names, 0 ∉ name

/-- The answers of pathconf to _PC_PATH_MAX. -/
inductive Pathconf
  | value (v : ℕ)
  | indeterminate
  | error

/-- The limits of the system: PATH_MAX may be a constant, or not be defined. -/
structure Limits where
  PATH_MAX : Option ℕ
  posixVersion : ℤ
  xsiVersion : ℤ
  pathconf : Pathconf

def PATH_MAX_GUESS : ℕ := 1024

/-- The size of the buffer that path_alloc returns, or none if it does not return. -/
def pathAlloc (limits : Limits) : Option ℕ := do
  let pathmax ←
    if limits.PATH_MAX.getD 0 = 0 then
      match limits.pathconf with
      | .value v => some (v + 1)
      | .indeterminate => some PATH_MAX_GUESS
      | .error => none
    else some (limits.PATH_MAX.getD 0)
  if limits.posixVersion < 200112 ∧ limits.xsiVersion < 4 then some (pathmax + 1)
  else some pathmax

/-- The buffer `fullpath`, whose size is `pathlen`, and the calls so far. -/
structure Walk (Stat : Type) where
  fullpath : Buffer Byte
  calls : List (Call Stat)

/-- The string at the start of the buffer. -/
def cstring (buf : Buffer Byte) : Option Path := buf.takeWhile (fun b => b ≠ 0) 0

/-- Store a string; none if it does not fit. -/
def strcpy (buf : Buffer Byte) (off : ℕ) (text : Path) : Option (Buffer Byte) :=
  if off + text.length + 1 ≤ buf.size then some (buf.write off (text ++ [0])) else none

section

variable {Stat : Type} (fs : FileSystem Stat) (func : List (Call Stat) → ℤ)

/-- Call the caller's function, whose result may depend on all the calls so far. -/
def Walk.call (w : Walk Stat) (call : Call Stat) : ℤ × Walk Stat :=
  (func (w.calls ++ [call]), { w with calls := w.calls ++ [call] })

/-- The loop over the names of a directory: `n` is the place behind the slash, and `walk` is
the walk from the pathname in the buffer. -/
def entries (walk : Walk Stat → Option (ℤ × Walk Stat)) (n : ℕ) :
    List Path → ℤ → Walk Stat → Option (ℤ × Walk Stat)
  | [], ret, w => some (ret, w)
  | name :: names, ret, w =>
    if name = dot ∨ name = dotDot then entries walk n names ret w
    else do
      let fullpath ← strcpy w.fullpath n name
      let (ret, w) ← walk { w with fullpath := fullpath }
      if ret ≠ 0 then some (ret, w) else entries walk n names ret w

/-- The buffer with room for another name. -/
def expand (buf : Buffer Byte) (n : ℕ) : Buffer Byte :=
  if buf.size < n + NAME_MAX + 2 then buf.grow buf.size else buf

/-- What is done in a directory after the call for it: the slash is appended, the entries are
walked, and everything from the slash on is erased. It is none when an access is outside the
buffer, and when a length is no int. -/
def descend (walk : Walk Stat → Option (ℤ × Walk Stat)) (path : Path) (status : Stat) (ret : ℤ)
    (w : Walk Stat) : Option (ℤ × Walk Stat) :=
  if INT_MAX < path.length + NAME_MAX + 2 then none
  else do
    let n := path.length
    let fullpath ← (expand w.fullpath n).set n slash
    let n := n + 1
    let fullpath ← fullpath.set n 0
    let w := { w with fullpath := fullpath }
    let path ← cstring w.fullpath
    match fs.opendir path with
    | none => some (w.call func ⟨path, some status, .FTW_DNR⟩)
    | some names => do
      let (ret, w) ← entries walk n names ret w
      let fullpath ← w.fullpath.set (n - 1) 0
      some (ret, { w with fullpath := fullpath })

/-- The walk from the pathname in the buffer, at most `fuel` levels deep. -/
def dopath : ℕ → Walk Stat → Option (ℤ × Walk Stat)
  | 0, _ => none
  | fuel + 1, w => do
    let path ← cstring w.fullpath
    match fs.lstat path with
    | none => some (w.call func ⟨path, none, .FTW_NS⟩)
    | some status =>
      if fs.isDir status = false then some (w.call func ⟨path, some status, .FTW_F⟩)
      else
        let (ret, w) := w.call func ⟨path, some status, .FTW_D⟩
        if ret ≠ 0 then some (ret, w)
        else descend fs func (dopath fuel) path status ret w

/-- The result of the walk from a pathname, and the calls that it made. The buffer holds some
`memory` at first. -/
def myftw (limits : Limits) (memory : ℕ → Byte) (fuel : ℕ) (pathname : Path) :
    Option (ℤ × List (Call Stat)) := do
  let pathlen ← pathAlloc limits
  let pathlen := if pathlen ≤ pathname.length then pathname.length * 2 else pathlen
  let fullpath ← strcpy ⟨pathlen, memory⟩ 0 pathname
  let (ret, w) ← dopath fs func fuel ⟨fullpath, []⟩
  some (ret, w.calls)

end

end Apue.Ftw
