import Apue.DbMachine

/-!
The record locks of the database library. All lock calls name one of a few
regions: the first byte of a hash chain, the free-list byte, everything after
the hash table of the index file, or the whole data file. These regions are
disjoint, so the lock table is determined by one lock per region and process.

A chain is always locked first, and none of the other regions is locked while
one of them is held. That order excludes a cycle of waiting processes whatever
the files contain, and every operation that returns has released its locks.
-/
namespace Apue.Db

open Programs Decimal Threads

inductive Region
  | chain (h : ℕ)
  | free
  | idxEnd
  | datEnd
  deriving DecidableEq

namespace Region

def fd : Region → Fd
  | datEnd => .dat
  | _ => .idx

def start : Region → ℕ
  | chain h => h * PTR_SZ + HASH_OFF
  | free => FREE_OFF
  | idxEnd => (NHASH_DEF + 1) * PTR_SZ + 1
  | datEnd => 0

def len : Region → ℕ
  | chain _ => 1
  | free => 1
  | _ => 0

def Valid : Region → Prop
  | chain h => h < NHASH_DEF
  | _ => True

/-- The order in which regions are locked. -/
def rank : Region → ℕ
  | chain _ => 0
  | _ => 1

/-- The region that a byte belongs to. -/
def ofByte : Fd → ℕ → Option Region
  | .dat, _ => some datEnd
  | .idx, b =>
    if b = 0 then some free
    else if 967 ≤ b then some idxEnd
    else if b % 7 = 0 ∧ b < 966 then some (chain (b / 7 - 1))
    else none

theorem ofByte_eq_some (r : Region) (hr : r.Valid) (fd : Fd) (b : ℕ) :
    ofByte fd b = some r ↔ fd = r.fd ∧ InRange r.start r.len b := by
  cases fd with
  | dat => cases r <;> simp [ofByte, Region.fd, start, len, InRange]
  | idx =>
    cases r with
    | datEnd =>
      simp only [ofByte, Region.fd]
      split_ifs <;> simp
    | free =>
      simp only [ofByte, Region.fd, start, len, InRange, FREE_OFF]
      split_ifs <;> simp <;> omega
    | idxEnd =>
      simp only [ofByte, Region.fd, start, len, InRange, NHASH_DEF, PTR_SZ]
      split_ifs <;> simp <;> omega
    | chain h =>
      simp only [Valid, NHASH_DEF] at hr
      simp only [ofByte, Region.fd, start, len, InRange, PTR_SZ, HASH_OFF]
      split_ifs <;> simp <;> omega

theorem ofByte_start (r : Region) (hr : r.Valid) : ofByte r.fd r.start = some r := by
  rw [ofByte_eq_some r hr]
  refine ⟨rfl, le_refl _, ?_⟩
  cases r <;> simp [len]

end Region

/-- The lock that one process holds on each region. -/
abbrev Held := Region → Option LockType

/-- No lock at all. -/
def noLocks : Held := fun _ => none

/-- The bytes that are locked if the given regions are. -/
def tableOf (held : Held) (fd : Fd) (b : ℕ) : Option LockType :=
  (Region.ofByte fd b).bind held

theorem tableOf_noLocks : tableOf noLocks = fun _ _ => none := by
  funext fd b
  simp only [tableOf, noLocks]
  cases Region.ofByte fd b <;> rfl

theorem tableOf_start (held : Held) (r : Region) (hr : r.Valid) :
    tableOf held r.fd r.start = held r := by
  rw [tableOf, Region.ofByte_start r hr]
  rfl

variable {P : Type}

/-- The lock table holds exactly the region locks `held`. -/
def Regional (locks : LockTable P) (held : P → Held) : Prop :=
  ∀ p, locks p = tableOf (held p)

theorem regional_setLocks [DecidableEq P] {locks : LockTable P} {held : P → Held}
    (h : Regional locks held) (p : P) (r : Region) (hr : r.Valid) (value : Option LockType) :
    Regional (setLocks locks p r.fd r.start r.len value)
      (Function.update held p (Function.update (held p) r value)) := by
  intro q
  funext fd b
  simp only [setLocks]
  by_cases hq : q = p
  · subst hq
    rw [Function.update_self, h q]
    by_cases hb : Region.ofByte fd b = some r
    · rw [if_pos ⟨rfl, (Region.ofByte_eq_some r hr fd b).mp hb⟩, tableOf, hb]
      simp only [Option.bind_some, Function.update_self]
    · rw [if_neg (fun hcon => hb ((Region.ofByte_eq_some r hr fd b).mpr hcon.2))]
      simp only [tableOf]
      cases hreg : Region.ofByte fd b with
      | none => rfl
      | some r' =>
        have hne : r' ≠ r := fun he => hb (he ▸ hreg)
        simp only [Option.bind_some, Function.update_of_ne hne]
  · rw [if_neg (fun hcon => hq hcon.1), Function.update_of_ne hq, h q]

/-- A lock on a region is granted exactly if no other process holds a
conflicting lock on that region. -/
theorem granted_region {locks : LockTable P} {held : P → Held} (h : Regional locks held)
    (p : P) (r : Region) (hr : r.Valid) (type : LockType) :
    Granted locks p (.setlkw r.fd type r.start r.len) ↔
      ∀ q, q ≠ p → ∀ t, held q r = some t → Compatible type t := by
  simp only [Granted]
  constructor
  · intro hg q hq t ht
    apply hg q hq r.start ((Region.ofByte_eq_some r hr _ _).mp (Region.ofByte_start r hr)).2
    rw [h q, tableOf_start _ _ hr, ht]
  · intro hg q hq b hb t ht
    apply hg q hq t
    rw [h q, tableOf, (Region.ofByte_eq_some r hr r.fd b).mpr ⟨rfl, hb⟩] at ht
    exact ht

/-- The lock discipline of a program, for every answer to its other calls: the
locks it holds when it returns, and the order in which it takes them. -/
def LockWp {α : Type} : Prog sig α → Held → (α → Held → Prop) → Prop
  | .ret a, held, post => post a held
  | .abort _, _, _ => True
  | .diverge, _, _ => True
  | .call (.setlkw fd type start len) k, held, post =>
    ∃ r : Region, r.Valid ∧ fd = r.fd ∧ start = r.start ∧ len = r.len ∧
      (∀ r', held r' ≠ none → r'.rank < r.rank) ∧
      LockWp (k 0) (Function.update held r (some type)) post
  | .call (.unlck fd start len) k, held, post =>
    ∃ r : Region, r.Valid ∧ fd = r.fd ∧ start = r.start ∧ len = r.len ∧
      LockWp (k 0) (Function.update held r none) post
  | .call (.lseek _ _ _) k, held, post => ∀ v, LockWp (k v) held post
  | .call (.read _ _) k, held, post => ∀ v, LockWp (k v) held post
  | .call (.write _ _) k, held, post => ∀ v, LockWp (k v) held post
  | .call (.fstat _) k, held, post => ∀ v, LockWp (k v) held post

namespace LockWp

variable {α β : Type}

theorem mono {p : Prog sig α} {held : Held} {q q' : α → Held → Prop}
    (h : LockWp p held q) (himp : ∀ a held', q a held' → q' a held') :
    LockWp p held q' := by
  induction p generalizing held with
  | ret a => exact himp a held h
  | abort msg => trivial
  | diverge => trivial
  | call c k ih =>
    cases c with
    | setlkw fd type start len =>
      obtain ⟨r, hr, hfd, hs, hl, hrank, hk⟩ := h
      exact ⟨r, hr, hfd, hs, hl, hrank, ih 0 hk⟩
    | unlck fd start len =>
      obtain ⟨r, hr, hfd, hs, hl, hk⟩ := h
      exact ⟨r, hr, hfd, hs, hl, ih 0 hk⟩
    | lseek fd off wh => exact fun v => ih v (h v)
    | read fd n => exact fun v => ih v (h v)
    | write fd bs => exact fun v => ih v (h v)
    | fstat fd => exact fun v => ih v (h v)

theorem bind {p : Prog sig α} {f : α → Prog sig β} {held : Held} {post : β → Held → Prop}
    (h : LockWp p held fun a held' => LockWp (f a) held' post) :
    LockWp (p >>= f) held post := by
  induction p generalizing held with
  | ret a => exact h
  | abort msg => trivial
  | diverge => trivial
  | call c k ih =>
    cases c with
    | setlkw fd type start len =>
      obtain ⟨r, hr, hfd, hs, hl, hrank, hk⟩ := h
      exact ⟨r, hr, hfd, hs, hl, hrank, ih 0 hk⟩
    | unlck fd start len =>
      obtain ⟨r, hr, hfd, hs, hl, hk⟩ := h
      exact ⟨r, hr, hfd, hs, hl, ih 0 hk⟩
    | lseek fd off wh => exact fun v => ih v (h v)
    | read fd n => exact fun v => ih v (h v)
    | write fd bs => exact fun v => ih v (h v)
    | fstat fd => exact fun v => ih v (h v)

theorem errDumpIf {cond : Prop} [Decidable cond] {msg : String} {held : Held}
    {post : Unit → Held → Prop} (h : post () held) : LockWp (Db.errDumpIf cond msg) held post := by
  unfold Db.errDumpIf
  split
  · trivial
  · exact h

theorem ite {cond : Prop} [Decidable cond] {p q : Prog sig α} {held : Held}
    {post : α → Held → Prop} (hp : LockWp p held post) (hq : LockWp q held post) :
    LockWp (if cond then p else q) held post := by
  split
  · exact hp
  · exact hq

end LockWp

/-- A program that only seeks and reads, whatever it reads; `post` holds of what
it returns. -/
def ReadOnly {α : Type} : Prog sig α → (α → Prop) → Prop
  | .ret a, post => post a
  | .abort _, _ => True
  | .diverge, _ => True
  | .call (.lseek _ _ _) k, post => ∀ v, ReadOnly (k v) post
  | .call (.read _ _) k, post => ∀ v, ReadOnly (k v) post
  | .call (.write _ _) _, _ => False
  | .call (.setlkw _ _ _ _) _, _ => False
  | .call (.unlck _ _ _) _, _ => False
  | .call (.fstat _) _, _ => False

namespace ReadOnly

variable {α β : Type}

theorem bind {p : Prog sig α} {f : α → Prog sig β} {post : β → Prop}
    (h : ReadOnly p fun a => ReadOnly (f a) post) : ReadOnly (p >>= f) post := by
  induction p with
  | ret a => exact h
  | abort msg => trivial
  | diverge => trivial
  | call c k ih =>
    cases c with
    | lseek fd off wh => exact fun v => ih v (h v)
    | read fd n => exact fun v => ih v (h v)
    | write fd bs => exact h.elim
    | setlkw fd type start len => exact h.elim
    | unlck fd start len => exact h.elim
    | fstat fd => exact h.elim

theorem mono {p : Prog sig α} {q q' : α → Prop} (h : ReadOnly p q) (himp : ∀ a, q a → q' a) :
    ReadOnly p q' := by
  induction p with
  | ret a => exact himp a h
  | abort msg => trivial
  | diverge => trivial
  | call c k ih =>
    cases c with
    | lseek fd off wh => exact fun v => ih v (h v)
    | read fd n => exact fun v => ih v (h v)
    | write fd bs => exact h.elim
    | setlkw fd type start len => exact h.elim
    | unlck fd start len => exact h.elim
    | fstat fd => exact h.elim

theorem errDumpIf {cond : Prop} [Decidable cond] {msg : String} {post : Unit → Prop}
    (h : post ()) : ReadOnly (Db.errDumpIf cond msg) post := by
  unfold Db.errDumpIf
  split
  · trivial
  · exact h

theorem ite {cond : Prop} [Decidable cond] {p q : Prog sig α} {post : α → Prop}
    (hp : ReadOnly p post) (hq : ReadOnly q post) : ReadOnly (if cond then p else q) post := by
  split
  · exact hp
  · exact hq

/-- Such a program keeps its locks. -/
theorem lockWp {p : Prog sig α} {post : α → Prop} (h : ReadOnly p post) (held : Held) :
    LockWp p held fun a held' => post a ∧ held' = held := by
  induction p with
  | ret a => exact ⟨h, rfl⟩
  | abort msg => trivial
  | diverge => trivial
  | call c k ih =>
    cases c with
    | lseek fd off wh => exact fun v => ih v (h v)
    | read fd n => exact fun v => ih v (h v)
    | write fd bs => exact h.elim
    | setlkw fd type start len => exact h.elim
    | unlck fd start len => exact h.elim
    | fstat fd => exact h.elim

end ReadOnly

theorem readOnly_readptr (off : ℤ) : ReadOnly (dbReadptr off) fun _ => True := by
  refine ReadOnly.bind fun pos => ReadOnly.bind (ReadOnly.errDumpIf ?_)
  exact ReadOnly.bind fun v => ReadOnly.bind (ReadOnly.errDumpIf trivial)

theorem readOnly_parseIdx (db : DB) (buf : List Byte) :
    ReadOnly (parseIdx db buf) db.SameChain := by
  unfold parseIdx
  split
  · trivial
  · split
    · trivial
    · refine ReadOnly.bind (ReadOnly.errDumpIf (ReadOnly.bind (ReadOnly.errDumpIf ?_)))
      exact ReadOnly.bind (ReadOnly.errDumpIf ⟨rfl, rfl, rfl⟩)

theorem readOnly_readidx (db : DB) (off : ℤ) :
    ReadOnly (dbReadidx db off) fun v => db.SameChain v.1 := by
  refine ReadOnly.bind fun pos => ReadOnly.bind (ReadOnly.errDumpIf (ReadOnly.bind fun head => ?_))
  refine ReadOnly.ite ⟨rfl, rfl, rfl⟩ ?_
  refine ReadOnly.bind (ReadOnly.errDumpIf (ReadOnly.bind (ReadOnly.errDumpIf ?_)))
  refine ReadOnly.bind fun buf => ReadOnly.bind (ReadOnly.errDumpIf (ReadOnly.bind
    (ReadOnly.errDumpIf ?_)))
  exact ReadOnly.bind (readOnly_parseIdx _ _)

theorem readOnly_readdat (db : DB) : ReadOnly (dbReaddat db) db.SameChain := by
  refine ReadOnly.bind fun pos => ReadOnly.bind (ReadOnly.errDumpIf (ReadOnly.bind fun buf => ?_))
  refine ReadOnly.bind (ReadOnly.errDumpIf (ReadOnly.bind (ReadOnly.errDumpIf ?_)))
  exact ⟨rfl, rfl, rfl⟩

theorem readOnly_findLoop (fuel : ℕ) (db : DB) (key : List Byte) (off : ℤ) :
    ReadOnly (findLoop fuel db key off) fun v => db.SameChain v.1 := by
  induction fuel generalizing db off with
  | zero => trivial
  | succ fuel ih =>
    refine ReadOnly.ite (ReadOnly.bind ?_) ⟨rfl, rfl, rfl⟩
    refine (readOnly_readidx db off).mono fun v hdb => ?_
    exact ReadOnly.ite hdb ((ih _ _).mono fun _ hdb' => hdb.trans hdb')

theorem readOnly_findfreeLoop (fuel : ℕ) (db : DB) (keylen datlen : ℕ) (save off : ℤ) :
    ReadOnly (findfreeLoop fuel db keylen datlen save off) fun v => db.SameChain v.1 := by
  induction fuel generalizing db save off with
  | zero => trivial
  | succ fuel ih =>
    refine ReadOnly.ite (ReadOnly.bind ?_) ⟨rfl, rfl, rfl⟩
    refine (readOnly_readidx db off).mono fun v hdb => ?_
    exact ReadOnly.ite hdb ((ih _ _ _).mono fun _ hdb' => hdb.trans hdb')

theorem readOnly_nextrecLoop (fuel : ℕ) (db : DB) :
    ReadOnly (nextrecLoop fuel db) fun v => db.SameChain v.1 := by
  induction fuel generalizing db with
  | zero => trivial
  | succ fuel ih =>
    refine ReadOnly.bind ((readOnly_readidx db 0).mono fun v hdb => ?_)
    exact ReadOnly.ite hdb (ReadOnly.ite ((ih _).mono fun _ hdb' => hdb.trans hdb') hdb)

end Apue.Db
