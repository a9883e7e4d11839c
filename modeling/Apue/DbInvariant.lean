import Apue.DbSpec
import Apue.DbLocks

/-!
The invariant of a database that any number of processes use, and what each of
them may rely on. The ghost state says which records there are, on which list
each of them is or which process holds it between two lists, which locks are
held, and what the map of the database is, an operation taking effect when it
obtains the lock of its chain.

A process reads a cell only if it can see its place: a chain or the free list
that it has locked, or a record in its own hands. It writes a cell only if it
holds the write lock or the record itself. Nobody else sees such a cell.
-/
namespace Apue.Db

open Programs Decimal ByteFiles Pointers Threads

/-- Where a record is: on a list, or in the hands of a process. The cell in
which a list starts has the place of the list. -/
inductive Place (P : Type)
  | chain (h : ℕ)
  | free
  | proc (p : P)

/-- How far the deletion of a record has come. From `blanked` on its data is
lost; in `unlinked` the record has left the chain `h`, but the cell `c` has yet
to be given the value `v`. -/
inductive Deletion
  | idle
  | blanked (o : ℕ)
  | unlinked (h c v : ℕ)

/-- `maker d` is the process that wrote the data record `d` and has not yet
written an index record for it. `abs` is the map of the database and `expect p`
the answer that the operation of `p` is to give. -/
structure Ghost (P : Type) where
  st : Store
  place : ℕ → Place P
  chain : ℕ → List ℕ
  free : List ℕ
  maker : ℕ → Option P
  del : Deletion
  held : P → Held
  abs : Map
  expect : P → Option (KeyOp × Res)

variable {P : Type}

/-- The pointers as they will be when the deletion under way is finished. -/
def Deletion.links (ptr : ℕ → ℕ) : Deletion → ℕ → ℕ
  | .unlinked _ c v => Function.update ptr c v
  | _ => ptr

/-- The data of the first record with the key. -/
def Store.lookup (st : Store) (l : List ℕ) (key : List Byte) : Option (List Byte) :=
  (l.find? fun o => (st.body o).key = key).map fun o => st.dat (st.body o).datoff

/-- Every index record has a data record of its own. -/
structure Records (st : Store) (maker : ℕ → Option P) : Prop where
  ok : st.Ok
  dat_mem : ∀ o ∈ st.offs, (st.body o).datoff ∈ st.doffs
  dat_len : ∀ o ∈ st.offs, (st.body o).datlen = (st.dat (st.body o).datoff).length + 1
  dat_inj : ∀ o ∈ st.offs, ∀ a ∈ st.offs, (st.body o).datoff = (st.body a).datoff → o = a
  maker_iff : ∀ d ∈ st.doffs, maker d = none ↔ ∃ o ∈ st.offs, (st.body o).datoff = d

/-- Every record is in its place: the lists are linked and hold the records they
should. -/
structure Lists (offs : List ℕ) (body : ℕ → Body) (place : ℕ → Place P)
    (chain : ℕ → List ℕ) (free : List ℕ) (links : ℕ → ℕ) : Prop where
  place_cell : ∀ h < NHASH_DEF, place (cell h) = .chain h
  place_free : place FREE_OFF = .free
  isCell : ∀ c h, place c = .chain h → c ∈ heads ∨ c ∈ offs
  mem_chain : ∀ h < NHASH_DEF, ∀ o, o ∈ chain h ↔ o ∈ offs ∧ place o = .chain h
  mem_free : ∀ o, o ∈ free ↔ o ∈ offs ∧ place o = .free
  nodup_chain : ∀ h < NHASH_DEF, (chain h).Nodup
  nodup_free : free.Nodup
  linked_chain : ∀ h < NHASH_DEF, Linked links (cell h) (chain h)
  linked_free : Linked links FREE_OFF free
  key_ok : ∀ o ∈ offs, ∀ h, place o = .chain h → KeyOk (body o).key ∧ hashOf (body o).key = h
  key_inj : ∀ o ∈ offs, ∀ a ∈ offs, ∀ h, place o = .chain h → place a = .chain h →
    (body o).key = (body a).key → o = a
  key_blank : ∀ o ∈ offs, place o = .free → Blank (body o).key

/-- A deletion is made by a process that has locked the chain and the free list. -/
def Deletion.Locked (held : P → Held) (place : ℕ → Place P) : Deletion → Prop
  | .idle => True
  | .blanked o => ∃ p h, held p .free = some .wrlck ∧ held p (.chain h) = some .wrlck ∧
      place o = .chain h
  | .unlinked h c _ => h < NHASH_DEF ∧ place c = .chain h ∧
      ∃ p, held p .free = some .wrlck ∧ held p (.chain h) = some .wrlck

structure LocksOk (locks : LockTable P) (held : P → Held) (place : ℕ → Place P)
    (del : Deletion) : Prop where
  regional : Regional locks held
  compat : ∀ p q, p ≠ q → ∀ r t t', held p r = some t → held q r = some t' → Compatible t t'
  deleting : del.Locked held place

/-- The map agrees with every chain that nobody is changing. -/
def Agrees (held : P → Held) (abs : Map) (chain : ℕ → List ℕ) (st : Store) : Prop :=
  ∀ h < NHASH_DEF, (∀ p, held p (.chain h) ≠ some .wrlck) →
    ∀ key, hashOf key = h → abs key = st.lookup (chain h) key

/-- Some call of db_store with this key and data has been made. -/
def Begun (hist : DbHist P) (key data : List Byte) : Prop :=
  ∃ q flag s, (Event.call q (.keyed (.store key data flag)), s) ∈ hist

/-- db_fetch, run alone on the files, finds the data under the key. -/
def Binding (fuel : ℕ) (files : Files) (key data : List Byte) : Prop :=
  ∃ db pos, (dbFetch fuel openedHandle key).run fileCall (files, ⟨967, 0⟩) =
    (.ok (db, some data), files, pos)

section Histories

variable [DecidableEq P]

/-- At the end of the history `hist` the key was bound to the data, or a process
was inside a db_store that makes it so. -/
def BoundNow (fuel : ℕ) (hist : DbHist P) (s : Shared P) (key data : List Byte) : Prop :=
  Binding fuel s.files key data ∨
    ∃ q flag, Hist.current hist q = some (.keyed (.store key data flag))

/-- At some moment since the call of db_nextrec that process `p` is in, the key
was bound to the data or was being bound to it. -/
def BoundDuring (fuel : ℕ) (p : P) (hist : DbHist P) (key data : List Byte) : Prop :=
  ∃ past e s later, hist = past ++ [(e, s)] ++ later ∧ (∀ x ∈ later, ¬ x.1.Bounds p) ∧
    Hist.current (past ++ [(e, s)]) p = some .nextrec ∧
    BoundNow fuel (past ++ [(e, s)]) s key data

/-- A process that does nothing but scan. -/
def Scanner (allowed : P → Op → Prop) (p : P) : Prop :=
  ∀ o, allowed p o → o = .rewind ∨ o = .nextrec

/-- Every record that a scan has returned. What it found behind the largest
pointer may never be bound. -/
def ScansOk (fuel : ℕ) (allowed : P → Op → Prop) (hist : DbHist P) : Prop :=
  ∀ past p key data s, Scanner allowed p →
    past ++ [(Event.ret p .nextrec (.record (some (key, data))), s)] <+: hist →
    Begun past key data ∧
      ((∀ x ∈ past, x.2.files.Near) → BoundDuring fuel p past key data)

/-- As long as no process was stopped, the map and the answers are those of the
serial run in the order of the chain locks. -/
def SerialOk (hist : DbHist P) (abs : Map) (expect : P → Option (KeyOp × Res)) : Prop :=
  Hist.NoExit hist → abs = (serialRun (lockOrder hist)).1 ∧
    ∀ p, serialAnswers (lockOrder hist) p = answers hist p ++ (expect p).toList

/-- Process `p` is storing the data under the key in the record `o`. It was
stopped at this only if no pointer can lead to the record. -/
def Making (hist : DbHist P) (p : P) (o : ℕ) (key data : List Byte) : Prop :=
  (∃ flag, Hist.current hist p = some (.keyed (.store key data flag))) ∨
    PTR_MAX < o ∧ Begun hist key data

/-- The records on a chain come from calls of db_store, and a record with a key
in the hands of a process is being stored by it. -/
structure Origins (hist : DbHist P) (st : Store) (place : ℕ → Place P) (del : Deletion) :
    Prop where
  begun : ∀ o ∈ st.offs, ∀ h, place o = .chain h → del ≠ .blanked o →
    Begun hist (st.body o).key (st.dat (st.body o).datoff)
  making : ∀ o ∈ st.offs, ∀ p, place o = .proc p → ¬ Blank (st.body o).key →
    Making hist p o (st.body o).key (st.dat (st.body o).datoff)

abbrev DbWorld (P : Type) := World sig P Op Res (Shared P) (Ghost P)

structure Inv (fuel : ℕ) (allowed : P → Op → Prop) (w : DbWorld P) : Prop where
  files : w.shared.files = w.ghost.st.files
  records : Records w.ghost.st w.ghost.maker
  lists : Lists w.ghost.st.offs w.ghost.st.body w.ghost.place w.ghost.chain w.ghost.free
    (w.ghost.del.links w.ghost.st.ptr)
  locks : LocksOk w.shared.locks w.ghost.held w.ghost.place w.ghost.del
  agrees : Agrees w.ghost.held w.ghost.abs w.ghost.chain w.ghost.st
  serial : SerialOk w.hist w.ghost.abs w.ghost.expect
  origins : Origins w.hist w.ghost.st w.ghost.place w.ghost.del
  scans : ScansOk fuel allowed w.hist

end Histories

/-- What a process that holds the locks `held` can see. -/
def Sees (held : Held) (p : P) : Place P → Prop
  | .chain h => held (.chain h) ≠ none
  | .free => held .free ≠ none
  | .proc q => q = p

/-- What a process that holds the locks `held` may change. -/
def Owns (held : Held) (p : P) : Place P → Prop
  | .chain h => held (.chain h) = some .wrlck
  | .free => held .free = some .wrlck
  | .proc q => q = p

/-- What a step of another process leaves as it is for process `p`. -/
structure Rely (p : P) (w w' : DbWorld P) : Prop where
  held : w'.ghost.held p = w.ghost.held p
  expect : w'.ghost.expect p = w.ghost.expect p
  hist : ∃ ext, w'.hist = w.hist ++ ext ∧ ∀ e ∈ ext, ¬ e.1.Bounds p
  chain : ∀ h, w.ghost.held p (.chain h) ≠ none → w'.ghost.chain h = w.ghost.chain h ∧
    ∀ key, hashOf key = h → w'.ghost.abs key = w.ghost.abs key
  free : w.ghost.held p .free ≠ none → w'.ghost.free = w.ghost.free ∧ w'.ghost.del = w.ghost.del
  cells : ∀ c, w.ghost.st.IsCell c → Sees (w.ghost.held p) p (w.ghost.place c) →
    w'.ghost.place c = w.ghost.place c ∧ w'.ghost.st.ptr c = w.ghost.st.ptr c
  recs : ∀ o ∈ w.ghost.st.offs, Sees (w.ghost.held p) p (w.ghost.place o) →
    w'.ghost.st.body o = w.ghost.st.body o ∧
      w'.ghost.st.dat (w.ghost.st.body o).datoff = w.ghost.st.dat (w.ghost.st.body o).datoff
  owned : ∀ o ∈ w'.ghost.st.offs, w'.ghost.place o = .proc p →
    o ∈ w.ghost.st.offs ∧ w.ghost.place o = .proc p
  made : ∀ d, (d ∈ w'.ghost.st.doffs ∧ w'.ghost.maker d = some p) ↔
    (d ∈ w.ghost.st.doffs ∧ w.ghost.maker d = some p)
  made_dat : ∀ d ∈ w.ghost.st.doffs, w.ghost.maker d = some p →
    w'.ghost.st.dat d = w.ghost.st.dat d
  offs : w.ghost.st.offs <+: w'.ghost.st.offs
  offs_eq : w.ghost.held p .idxEnd ≠ none → w'.ghost.st.offs = w.ghost.st.offs
  doffs : w.ghost.st.doffs <+: w'.ghost.st.doffs
  doffs_eq : w.ghost.held p .datEnd ≠ none → w'.ghost.st.doffs = w.ghost.st.doffs
  dat_size : ∀ d ∈ w.ghost.st.doffs,
    (w'.ghost.st.dat d).length = (w.ghost.st.dat d).length
  fixed : ∀ o ∈ w.ghost.st.offs,
    (w'.ghost.st.body o).text.length = (w.ghost.st.body o).text.length ∧
    (w.ghost.held p .free ≠ none → ¬ Blank (w.ghost.st.body o).key →
      w'.ghost.st.body o = w.ghost.st.body o)

namespace Rely

theorem refl (p : P) (w : DbWorld P) : Rely p w w where
  held := rfl
  expect := rfl
  hist := ⟨[], (List.append_nil _).symm, fun _ he => absurd he List.not_mem_nil⟩
  chain _ _ := ⟨rfl, fun _ _ => rfl⟩
  free _ := ⟨rfl, rfl⟩
  cells _ _ _ := ⟨rfl, rfl⟩
  recs _ _ _ := ⟨rfl, rfl⟩
  owned _ ho hp := ⟨ho, hp⟩
  made _ := Iff.rfl
  made_dat _ _ _ := rfl
  offs := List.prefix_rfl
  offs_eq _ := rfl
  doffs := List.prefix_rfl
  doffs_eq _ := rfl
  dat_size _ _ := rfl
  fixed _ _ := ⟨rfl, fun _ _ => rfl⟩

variable {p : P} {a b c : DbWorld P}

theorem isCell (h : Rely p a b) {x : ℕ} (hx : a.ghost.st.IsCell x) : b.ghost.st.IsCell x :=
  hx.imp_right fun ho => h.offs.subset ho

theorem sees (h : Rely p a b) {x : ℕ} (hx : a.ghost.st.IsCell x)
    (hs : Sees (a.ghost.held p) p (a.ghost.place x)) :
    Sees (b.ghost.held p) p (b.ghost.place x) := by
  rw [h.held, (h.cells x hx hs).1]
  exact hs

theorem trans (h : Rely p a b) (h' : Rely p b c) : Rely p a c where
  held := h'.held.trans h.held
  expect := h'.expect.trans h.expect
  hist := by
    obtain ⟨ext, he, hb⟩ := h.hist
    obtain ⟨ext', he', hb'⟩ := h'.hist
    refine ⟨ext ++ ext', by rw [he', he, List.append_assoc], fun e hmem => ?_⟩
    rcases List.mem_append.mp hmem with hmem | hmem
    · exact hb e hmem
    · exact hb' e hmem
  chain := by
    intro x hx
    have h₁ := h.chain x hx
    have h₂ := h'.chain x (by rwa [h.held])
    exact ⟨h₂.1.trans h₁.1, fun key hk => (h₂.2 key hk).trans (h₁.2 key hk)⟩
  free := by
    intro hx
    have h₁ := h.free hx
    have h₂ := h'.free (by rwa [h.held])
    exact ⟨h₂.1.trans h₁.1, h₂.2.trans h₁.2⟩
  cells := by
    intro x hx hs
    have h₁ := h.cells x hx hs
    have h₂ := h'.cells x (h.isCell hx) (h.sees hx hs)
    exact ⟨h₂.1.trans h₁.1, h₂.2.trans h₁.2⟩
  recs := by
    intro o ho hs
    have h₁ := h.recs o ho hs
    have h₂ := h'.recs o (h.offs.subset ho) (h.sees (Or.inr ho) hs)
    rw [h₁.1] at h₂
    exact ⟨h₂.1, h₂.2.trans h₁.2⟩
  owned := by
    intro o ho hp
    obtain ⟨ho', hp'⟩ := h'.owned o ho hp
    exact h.owned o ho' hp'
  made d := (h'.made d).trans (h.made d)
  made_dat := by
    intro d hd hm
    have h₁ := h.made_dat d hd hm
    obtain ⟨hd', hm'⟩ := (h.made d).mpr ⟨hd, hm⟩
    exact (h'.made_dat d hd' hm').trans h₁
  offs := h.offs.trans h'.offs
  offs_eq hx := (h'.offs_eq (by rwa [h.held])).trans (h.offs_eq hx)
  doffs := h.doffs.trans h'.doffs
  doffs_eq hx := (h'.doffs_eq (by rwa [h.held])).trans (h.doffs_eq hx)
  dat_size d hd := (h'.dat_size d (h.doffs.subset hd)).trans (h.dat_size d hd)
  fixed := by
    intro o ho
    have h₁ := h.fixed o ho
    have h₂ := h'.fixed o (h.offs.subset ho)
    refine ⟨h₂.1.trans h₁.1, fun hf hb => ?_⟩
    have hbody := h₁.2 hf hb
    exact (h₂.2 (by rwa [h.held]) (by rwa [hbody])).trans hbody

theorem current [DecidableEq P] (h : Rely p a b) : Hist.current b.hist p = Hist.current a.hist p := by
  obtain ⟨ext, he, hb⟩ := h.hist
  rw [he, Hist.current_append _ _ hb]

end Rely

/-- The offset `x` is where an index record starts or the last one ends. -/
def AtRecord (st : Store) (x : ℕ) : Prop :=
  ∃ pre post, st.offs = pre ++ post ∧
    x = endOf (fun o => PTR_SZ + IDXLEN_SZ + (st.body o).text.length) 967 pre

/-- A process between operations has nothing in its hands. -/
structure IdleOk (allowed : P → Op → Prop) (p : P) (db : DB) (pos : Pos) (w : DbWorld P) :
    Prop where
  opened : db.Opened
  held : w.ghost.held p = noLocks
  expect : w.ghost.expect p = none
  not_owned : ∀ o ∈ w.ghost.st.offs, w.ghost.place o ≠ .proc p
  not_made : ∀ d ∈ w.ghost.st.doffs, w.ghost.maker d ≠ some p
  scan : Scanner allowed p → AtRecord w.ghost.st pos.idx

theorem AtRecord.stable {p : P} {a b : DbWorld P} (h : Rely p a b) {x : ℕ}
    (hx : AtRecord a.ghost.st x) : AtRecord b.ghost.st x := by
  obtain ⟨pre, post, hoffs, rfl⟩ := hx
  obtain ⟨ext, hext⟩ := h.offs
  refine ⟨pre, post ++ ext, by rw [← hext, hoffs, List.append_assoc], ?_⟩
  refine (endOf_congr fun o ho => ?_).symm
  rw [(h.fixed o (hoffs ▸ List.mem_append_left _ ho)).1]

theorem IdleOk.stable {allowed : P → Op → Prop} {p : P} {db : DB} {pos : Pos} {a b : DbWorld P}
    (h : Rely p a b) (hi : IdleOk allowed p db pos a) : IdleOk allowed p db pos b where
  opened := hi.opened
  held := h.held.trans hi.held
  expect := h.expect.trans hi.expect
  not_owned o ho hp := by
    obtain ⟨ho', hp'⟩ := h.owned o ho hp
    exact hi.not_owned o ho' hp'
  not_made d hd hm := by
    obtain ⟨hd', hm'⟩ := (h.made d).mp ⟨hd, hm⟩
    exact hi.not_made d hd' hm'
  scan hs := (hi.scan hs).stable h

/-- The proof outline of the database. The scan of a process whose file offset
may be anywhere is not bounded by it. -/
def outline [DecidableEq P] (fuel : ℕ) (allowed : P → Op → Prop) :
    Outline (machine fuel allowed) (Ghost P) where
  inv := Inv fuel allowed
  rely := Rely
  idle := IdleOk allowed
  mayDiverge o := o = .nextrec
  rely_refl := Rely.refl
  rely_trans _ _ _ _ := Rely.trans
  idle_stable _ _ _ _ _ := IdleOk.stable

end Apue.Db
