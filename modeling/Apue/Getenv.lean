import Apue.Decimal
import Mathlib.Logic.Relation

/-!
The getenv that any number of threads may call (threadctl/getenv3.c). Each thread has a buffer
of its own, which it finds by the thread-specific key and which is freed when the thread exits,
and a mutex is held while the environment is searched. The bytes of a value are copied one by
one, and malloc may fail.
-/
namespace Apue.Getenv

open Decimal Relation

def MAXSTRINGSZ : ℕ := 4096

/-- The value in an entry of the environment, if the entry has the name. -/
def valueOf (name entry : List Byte) : Option (List Byte) :=
  if entry.take name.length = name ∧ entry[name.length]? = some 61 then
    some (entry.drop (name.length + 1))
  else none

/-- The value of a name in the environment. -/
def lookup (environ : List (List Byte)) (name : List Byte) : Option (List Byte) :=
  environ.findSome? (valueOf name)

/-- Where a thread is in its call. -/
inductive Pc
  | idle
  | locking (name : List Byte)
  | getting (name : List Byte)
  | allocating (name : List Byte)
  | searching (name : List Byte) (envbuf : ℕ)
  | copying (name : List Byte) (envbuf : ℕ) (value : List Byte) (i : ℕ)
  | unlocking (name : List Byte) (result : Option ℕ)

/-- The thread has the mutex. -/
def Pc.inside : Pc → Prop
  | .idle => False
  | .locking _ => False
  | _ => True

/-- What follows pthread_getspecific. -/
def gotten (name : List Byte) : Option ℕ → Pc
  | none => .allocating name
  | some envbuf => .searching name envbuf

/-- What follows the search. -/
def found (name : List Byte) (envbuf : ℕ) : Option (List Byte) → Pc
  | none => .unlocking name none
  | some value => .copying name envbuf value 0

/-- `specific` has the buffer of each thread, and `result` what the last call of a thread has
returned, until its next call. -/
structure State (T : Type) where
  envMutex : Option T
  specific : T → Option ℕ
  mem : ℕ → Option (ℕ → Byte)
  pc : T → Pc
  result : T → Option (List Byte × Option ℕ)

def start (T : Type) : State T :=
  ⟨none, fun _ => none, fun _ => none, fun _ => .idle, fun _ => none⟩

variable {T : Type}

def State.go [DecidableEq T] (s : State T) (t : T) (pc : Pc) : State T :=
  { s with pc := Function.update s.pc t pc }

/-- A step of a thread. A new buffer has any bytes and is stored under the key at once. -/
inductive Step [DecidableEq T] (environ : List (List Byte)) (s : State T) : State T → Prop
  | call {t : T} {name : List Byte} (hpc : s.pc t = .idle) :
      Step environ s { s.go t (.locking name) with result := Function.update s.result t none }
  | lock {t : T} {name : List Byte} (hpc : s.pc t = .locking name) (hfree : s.envMutex = none) :
      Step environ s { s.go t (.getting name) with envMutex := some t }
  | getspecific {t : T} {name : List Byte} (hpc : s.pc t = .getting name) :
      Step environ s (s.go t (gotten name (s.specific t)))
  | mallocFails {t : T} {name : List Byte} (hpc : s.pc t = .allocating name) :
      Step environ s (s.go t (.unlocking name none))
  | malloc {t : T} {name : List Byte} {p : ℕ} {bytes : ℕ → Byte}
      (hpc : s.pc t = .allocating name) (hp : s.mem p = none) :
      Step environ s { s.go t (.searching name p) with
        mem := Function.update s.mem p (some bytes)
        specific := Function.update s.specific t (some p) }
  | search {t : T} {name : List Byte} {p : ℕ} (hpc : s.pc t = .searching name p) :
      Step environ s (s.go t (found name p (lookup environ name)))
  | copy {t : T} {name value : List Byte} {p i : ℕ} {buf : ℕ → Byte}
      (hpc : s.pc t = .copying name p value i) (hi : i < MAXSTRINGSZ - 1)
      (hbuf : s.mem p = some buf) :
      Step environ s { s.go t (.copying name p value (i + 1)) with
        mem := Function.update s.mem p (some (Function.update buf i (value.getD i 0))) }
  | copied {t : T} {name value : List Byte} {p i : ℕ} (hpc : s.pc t = .copying name p value i)
      (hi : MAXSTRINGSZ - 1 ≤ i) : Step environ s (s.go t (.unlocking name (some p)))
  | unlock {t : T} {name : List Byte} {r : Option ℕ} (hpc : s.pc t = .unlocking name r) :
      Step environ s { s.go t .idle with
        envMutex := none
        result := Function.update s.result t (some (name, r)) }
  | exit {t : T} (hpc : s.pc t = .idle) :
      Step environ s { s with
        mem := fun p => if s.specific t = some p then none else s.mem p
        specific := Function.update s.specific t none
        result := Function.update s.result t none }

def Reachable [DecidableEq T] (environ : List (List Byte)) (s : State T) : Prop :=
  ReflTransGen (Step environ) (start T) s

/-- The first `n` bytes of the value, with null bytes after its end. -/
def Copied (s : State T) (p : ℕ) (value : List Byte) (n : ℕ) : Prop :=
  ∃ buf, s.mem p = some buf ∧ ∀ j < n, buf j = value.getD j 0

/-- What a thread can rely on when its call returns. -/
def Good (environ : List (List Byte)) (s : State T) (t : T) (name : List Byte) :
    Option ℕ → Prop
  | none => s.specific t = none ∨ lookup environ name = none
  | some p => s.specific t = some p ∧
      ∃ value, lookup environ name = some value ∧ Copied s p value (MAXSTRINGSZ - 1)

/-- What a thread can rely on in its call. -/
def PcOk (environ : List (List Byte)) (s : State T) (t : T) : Pc → Prop
  | .idle => True
  | .locking _ => True
  | .getting _ => True
  | .allocating _ => s.specific t = none
  | .searching _ p => s.specific t = some p
  | .copying name p value i => s.specific t = some p ∧ lookup environ name = some value ∧
      i ≤ MAXSTRINGSZ - 1 ∧ Copied s p value i
  | .unlocking name r => Good environ s t name r

structure ThreadOk (environ : List (List Byte)) (s : State T) (t : T) (pc : Pc) : Prop where
  place : PcOk environ s t pc
  result : ∀ name r, s.result t = some (name, r) → pc = .idle ∧ Good environ s t name r
  allocated : ∀ p, s.specific t = some p → ∃ buf, s.mem p = some buf
  mutex : s.envMutex = some t ↔ pc.inside

structure Inv (environ : List (List Byte)) (s : State T) : Prop where
  thread : ∀ t, ThreadOk environ s t (s.pc t)
  own : ∀ t t' p, s.specific t = some p → s.specific t' = some p → t = t'

/-- What a step of another thread leaves alone. -/
structure Spares (s s' : State T) (t : T) : Prop where
  pc : s'.pc t = s.pc t
  specific : s'.specific t = s.specific t
  mem : ∀ p, s.specific t = some p → s'.mem p = s.mem p
  result : s'.result t = s.result t
  mutex : s'.envMutex = some t ↔ s.envMutex = some t

section Steps

variable {environ : List (List Byte)} {s s' : State T} {t : T} {name value : List Byte} {p i : ℕ}

theorem inv_start (environ : List (List Byte)) : Inv environ (start T) :=
  ⟨fun _ => ⟨trivial, nofun, nofun, iff_of_false nofun id⟩, nofun⟩

theorem Copied.spares (h : Copied s p value i) (hmem : s'.mem p = s.mem p) :
    Copied s' p value i := by
  obtain ⟨buf, hbuf, hbytes⟩ := h
  exact ⟨buf, hmem.trans hbuf, hbytes⟩

theorem Spares.good {r : Option ℕ} (h : Spares s s' t) (hgood : Good environ s t name r) :
    Good environ s' t name r := by
  cases r with
  | none => exact hgood.imp_left h.specific.trans
  | some p =>
    obtain ⟨hp, value, hvalue, hcopied⟩ := hgood
    exact ⟨h.specific.trans hp, value, hvalue, hcopied.spares (h.mem p hp)⟩

theorem Spares.thread {pc : Pc} (h : Spares s s' t) (ht : ThreadOk environ s t pc) :
    ThreadOk environ s' t pc where
  place := by
    have hpc := ht.place
    cases pc with
    | idle => trivial
    | locking name => trivial
    | getting name => trivial
    | allocating name => exact h.specific.trans hpc
    | searching name p => exact h.specific.trans hpc
    | copying name p value i =>
      obtain ⟨hp, hvalue, hi, hcopied⟩ := hpc
      exact ⟨h.specific.trans hp, hvalue, hi, hcopied.spares (h.mem p hp)⟩
    | unlocking name r => exact h.good hpc
  result name r hr := by
    obtain ⟨hidle, hgood⟩ := ht.result name r (h.result.symm.trans hr)
    exact ⟨hidle, h.good hgood⟩
  allocated p hp := by
    have hold := h.specific.symm.trans hp
    obtain ⟨buf, hbuf⟩ := ht.allocated p hold
    exact ⟨buf, (h.mem p hold).trans hbuf⟩
  mutex := h.mutex.trans ht.mutex

/-- A step of one thread keeps the invariant, if it leaves the others alone and gives the thread
no buffer of another one. -/
theorem Inv.act {pc : Pc} (h : Inv environ s) (hothers : ∀ q, q ≠ t → Spares s s' q)
    (hpc : s'.pc t = pc) (ht : ThreadOk environ s' t pc)
    (hown : ∀ p, s'.specific t = some p → ∀ q, q ≠ t → s.specific q ≠ some p) :
    Inv environ s' where
  thread q := by
    by_cases hq : q = t
    · subst hq
      exact hpc ▸ ht
    · rw [(hothers q hq).pc]
      exact (hothers q hq).thread (h.thread q)
  own q q' p hp hp' := by
    by_cases hq : q = t
    · by_cases hq' : q' = t
      · exact hq.trans hq'.symm
      · subst hq
        exact absurd ((hothers q' hq').specific.symm.trans hp') (hown p hp q' hq')
    · by_cases hq' : q' = t
      · subst hq'
        exact absurd ((hothers q hq).specific.symm.trans hp) (hown p hp' q hq)
      · exact h.own q q' p ((hothers q hq).specific.symm.trans hp)
          ((hothers q' hq').specific.symm.trans hp')

/-- A step that does not touch the buffers leaves the other threads alone, if it keeps what
they see of the mutex. -/
theorem spares_of_quiet (hpc : ∀ q, q ≠ t → s'.pc q = s.pc q) (hspecific : s'.specific = s.specific)
    (hmem : s'.mem = s.mem) (hresult : ∀ q, q ≠ t → s'.result q = s.result q)
    (hmutex : ∀ q, q ≠ t → (s'.envMutex = some q ↔ s.envMutex = some q)) :
    ∀ q, q ≠ t → Spares s s' q := fun q hq =>
  ⟨hpc q hq, congrFun hspecific q, fun p _ => congrFun hmem p, hresult q hq, hmutex q hq⟩

variable [DecidableEq T]

/-- A step in the call that only goes on. -/
theorem Inv.go {pc pc' : Pc} (h : Inv environ s) (hpc : s.pc t = pc) (hinside : pc.inside)
    (hok : PcOk environ s t pc') (hinside' : pc'.inside) : Inv environ (s.go t pc') := by
  have ht := h.thread t
  rw [hpc] at ht
  refine h.act (spares_of_quiet (fun q hq => Function.update_of_ne hq ..) rfl rfl
    (fun _ _ => rfl) fun _ _ => Iff.rfl) (Function.update_self ..) ⟨?_, fun name r hr => ?_,
    ht.allocated, ht.mutex.trans (iff_of_true hinside hinside')⟩
    fun p hp q hq hp' => hq (h.own q t p hp' hp)
  · cases pc' <;> exact hok
  · obtain ⟨hidle, -⟩ := ht.result name r hr
    rw [hidle] at hinside
    exact absurd hinside id

theorem Inv.call (h : Inv environ s) (hpc : s.pc t = .idle) (name : List Byte) :
    Inv environ { s.go t (.locking name) with result := Function.update s.result t none } := by
  have ht := h.thread t
  rw [hpc] at ht
  refine h.act (spares_of_quiet (fun q hq => Function.update_of_ne hq ..) rfl rfl
    (fun q hq => Function.update_of_ne hq ..) fun _ _ => Iff.rfl) (Function.update_self ..)
    ⟨trivial, fun name r hr => ?_, ht.allocated, ht.mutex⟩
    fun p hp q hq hp' => hq (h.own q t p hp' hp)
  cases (Function.update_self ..).symm.trans hr

theorem Inv.lock (h : Inv environ s) (hpc : s.pc t = .locking name) (hfree : s.envMutex = none) :
    Inv environ { s.go t (.getting name) with envMutex := some t } := by
  have ht := h.thread t
  rw [hpc] at ht
  refine h.act (spares_of_quiet (fun q hq => Function.update_of_ne hq ..) rfl rfl
    (fun _ _ => rfl) fun q hq => ?_) (Function.update_self ..)
    ⟨trivial, fun name r hr => ?_, ht.allocated, iff_of_true rfl trivial⟩
    fun p hp q hq hp' => hq (h.own q t p hp' hp)
  · rw [hfree]
    exact ⟨fun heq => absurd (Option.some.inj heq).symm hq, nofun⟩
  · cases (ht.result name r hr).1

theorem Inv.malloc (h : Inv environ s) (hpc : s.pc t = .allocating name) (hp : s.mem p = none)
    (bytes : ℕ → Byte) :
    Inv environ { s.go t (.searching name p) with
      mem := Function.update s.mem p (some bytes)
      specific := Function.update s.specific t (some p) } := by
  have ht := h.thread t
  rw [hpc] at ht
  have hnew : ∀ q, s.specific q ≠ some p := fun q hq => by
    obtain ⟨buf, hbuf⟩ := (h.thread q).allocated p hq
    cases hp.symm.trans hbuf
  refine h.act (fun q hq => ⟨Function.update_of_ne hq .., Function.update_of_ne hq ..,
    fun p' hp' => ?_, rfl, Iff.rfl⟩) (Function.update_self ..)
    ⟨Function.update_self .., fun name r hr => ?_, fun p' hp' => ?_, ht.mutex⟩
    fun p' hp' q hq => ?_
  · refine Function.update_of_ne (fun heq => hnew q ?_) ..
    rw [← heq]
    exact hp'
  · cases (ht.result name r hr).1
  · obtain rfl := Option.some.inj ((Function.update_self t (some p) s.specific).symm.trans hp')
    exact ⟨bytes, Function.update_self ..⟩
  · obtain rfl := Option.some.inj ((Function.update_self t (some p) s.specific).symm.trans hp')
    exact hnew q

theorem Inv.copy {buf : ℕ → Byte} (h : Inv environ s) (hpc : s.pc t = .copying name p value i)
    (hi : i < MAXSTRINGSZ - 1) (hbuf : s.mem p = some buf) :
    Inv environ { s.go t (.copying name p value (i + 1)) with
      mem := Function.update s.mem p (some (Function.update buf i (value.getD i 0))) } := by
  have ht := h.thread t
  rw [hpc] at ht
  obtain ⟨hp, hvalue, -, buf', hbuf', hbytes⟩ := ht.place
  obtain rfl := Option.some.inj (hbuf.symm.trans hbuf')
  refine h.act (fun q hq => ⟨Function.update_of_ne hq .., rfl, fun p' hp' => ?_, rfl, Iff.rfl⟩)
    (Function.update_self ..) ⟨⟨hp, hvalue, hi, _, Function.update_self .., fun j hj => ?_⟩,
    fun name r hr => ?_, fun p' hp' => ?_, ht.mutex⟩
    fun p' hp' q hq hq' => hq (h.own q t p' hq' hp')
  · refine Function.update_of_ne (fun heq => hq (h.own q t p ?_ hp)) ..
    rw [← heq]
    exact hp'
  · by_cases hji : j = i
    · rw [hji, Function.update_self]
    · rw [Function.update_of_ne hji]
      exact hbytes j (Nat.lt_of_le_of_ne (Nat.le_of_lt_succ hj) hji)
  · cases (ht.result name r hr).1
  · obtain rfl := Option.some.inj (hp.symm.trans hp')
    exact ⟨_, Function.update_self ..⟩

theorem Inv.unlock {r : Option ℕ} (h : Inv environ s) (hpc : s.pc t = .unlocking name r) :
    Inv environ { s.go t .idle with
      envMutex := none
      result := Function.update s.result t (some (name, r)) } := by
  have ht := h.thread t
  rw [hpc] at ht
  have hmine : s.envMutex = some t := ht.mutex.mpr trivial
  refine h.act (spares_of_quiet (fun q hq => Function.update_of_ne hq ..) rfl rfl
    (fun q hq => Function.update_of_ne hq ..) fun q hq => ?_) (Function.update_self ..)
    ⟨trivial, fun name' r' hr => ?_, ht.allocated, iff_of_false nofun id⟩
    fun p hp q hq hp' => hq (h.own q t p hp' hp)
  · rw [hmine]
    exact ⟨nofun, fun heq => absurd (Option.some.inj heq).symm hq⟩
  · have hnow := Function.update_self t (some (name, r)) s.result
    obtain ⟨rfl, rfl⟩ := Prod.mk.inj (Option.some.inj (hnow.symm.trans hr))
    exact ⟨rfl, ht.place⟩

theorem Inv.exit (h : Inv environ s) (hpc : s.pc t = .idle) :
    Inv environ { s with
      mem := fun p => if s.specific t = some p then none else s.mem p
      specific := Function.update s.specific t none
      result := Function.update s.result t none } := by
  have ht := h.thread t
  rw [hpc] at ht
  refine h.act (fun q hq => ⟨rfl, Function.update_of_ne hq .., fun p hp => ?_,
    Function.update_of_ne hq .., Iff.rfl⟩) hpc
    ⟨trivial, fun name r hr => ?_, fun p hp => ?_, ht.mutex⟩ fun p hp => ?_
  · exact if_neg fun hp' => hq (h.own q t p hp hp')
  · cases (Function.update_self ..).symm.trans hr
  · cases (Function.update_self ..).symm.trans hp
  · cases (Function.update_self ..).symm.trans hp

theorem Inv.step (h : Inv environ s) (hs : Step environ s s') : Inv environ s' := by
  cases hs with
  | call hpc => exact h.call hpc _
  | lock hpc hfree => exact h.lock hpc hfree
  | @getspecific t name hpc =>
    cases hspecific : s.specific t with
    | none => exact h.go hpc trivial hspecific trivial
    | some p => exact h.go hpc trivial hspecific trivial
  | @mallocFails t name hpc =>
    have ht := h.thread t
    rw [hpc] at ht
    exact h.go hpc trivial (Or.inl ht.place) trivial
  | malloc hpc hp => exact h.malloc hpc hp _
  | @search t name p hpc =>
    have ht := h.thread t
    rw [hpc] at ht
    obtain ⟨buf, hbuf⟩ := ht.allocated p ht.place
    cases hvalue : lookup environ name with
    | none => exact h.go hpc trivial (Or.inr hvalue) trivial
    | some value =>
      exact h.go hpc trivial ⟨ht.place, hvalue, Nat.zero_le _, buf, hbuf, nofun⟩ trivial
  | copy hpc hi hbuf => exact h.copy hpc hi hbuf
  | @copied t name value p i hpc hi =>
    have ht := h.thread t
    rw [hpc] at ht
    obtain ⟨hp, hvalue, hle, hcopied⟩ := ht.place
    obtain rfl := Nat.le_antisymm hle hi
    exact h.go hpc trivial ⟨hp, value, hvalue, hcopied⟩ trivial
  | unlock hpc => exact h.unlock hpc
  | exit hpc => exact h.exit hpc

/-- The thread that has the mutex can go on. -/
theorem Inv.inside_step (h : Inv environ s) (ht : (s.pc t).inside) : ∃ s', Step environ s s' := by
  have hok := h.thread t
  generalize hpc : s.pc t = pc at ht hok
  cases pc with
  | idle => exact absurd ht id
  | locking name => exact absurd ht id
  | getting name => exact ⟨_, .getspecific hpc⟩
  | allocating name => exact ⟨_, .mallocFails hpc⟩
  | searching name p => exact ⟨_, .search hpc⟩
  | copying name p value i =>
    rcases Nat.lt_or_ge i (MAXSTRINGSZ - 1) with hi | hi
    · obtain ⟨buf, hbuf⟩ := hok.allocated p hok.place.1
      exact ⟨_, .copy hpc hi hbuf⟩
    · exact ⟨_, .copied hpc hi⟩
  | unlocking name r => exact ⟨_, .unlock hpc⟩

/-- As long as a thread is in its call, a thread can go on. -/
theorem Inv.exists_step (h : Inv environ s) (hbusy : s.pc t ≠ .idle) :
    ∃ s', Step environ s s' := by
  cases hmutex : s.envMutex with
  | some q => exact h.inside_step ((h.thread q).mutex.mp hmutex)
  | none =>
    have hout : ¬ (s.pc t).inside := fun hin => by
      cases hmutex.symm.trans ((h.thread t).mutex.mpr hin)
    generalize hpc : s.pc t = pc at hbusy hout
    cases pc with
    | idle => exact absurd rfl hbusy
    | locking name => exact ⟨_, .lock hpc hmutex⟩
    | getting | allocating | searching | copying | unlocking => exact absurd trivial hout

theorem inv_of_reachable (h : Reachable environ s) : Inv environ s := by
  induction h with
  | refl => exact inv_start environ
  | tail _ hs ih => exact ih.step hs

end Steps

/-- The buffer has the text as a string. -/
def StringIn (buf : ℕ → Byte) (text : List Byte) : Prop :=
  (∀ j < text.length, buf j = text.getD j 0) ∧ buf text.length = 0

/-- In every interleaving of any number of threads that call getenv and exit: one thread at most
has the mutex. From the return of a call to the next call of the same thread, whatever the
others do, the result belongs to this thread only, and the name has a value in the environment
of which the buffer holds the first MAXSTRINGSZ - 1 bytes, so that the buffer has it as a string
if it is shorter; when getenv returns NULL the name has no value or the thread has no buffer.
As long as a thread is in its call, a thread can go on. -/
theorem getenv_reentrant [DecidableEq T] (environ : List (List Byte)) (s : State T)
    (h : Reachable environ s) :
    (∀ t t', (s.pc t).inside → (s.pc t').inside → t = t') ∧
      (∀ t name p, s.result t = some (name, some p) → ∃ value buf,
        lookup environ name = some value ∧ s.mem p = some buf ∧
          (∀ j < MAXSTRINGSZ - 1, buf j = value.getD j 0) ∧
          (value.length < MAXSTRINGSZ - 1 → StringIn buf value)) ∧
      (∀ t t' name name' p, s.result t = some (name, some p) →
        s.result t' = some (name', some p) → t = t') ∧
      (∀ t name, s.result t = some (name, none) →
        s.specific t = none ∨ lookup environ name = none) ∧
      ∀ t, s.pc t ≠ .idle → ∃ s', Step environ s s' := by
  have hinv := inv_of_reachable h
  refine ⟨fun t t' ht ht' => ?_, fun t name p hr => ?_, fun t t' name name' p hr hr' => ?_,
    fun t name hr => ((hinv.thread t).result name none hr).2, fun t hbusy => hinv.exists_step hbusy⟩
  · have hmine := (hinv.thread t).mutex.mpr ht
    exact Option.some.inj (hmine.symm.trans ((hinv.thread t').mutex.mpr ht'))
  · obtain ⟨-, -, value, hvalue, buf, hbuf, hbytes⟩ := (hinv.thread t).result name (some p) hr
    refine ⟨value, buf, hvalue, hbuf, hbytes, fun hshort => ⟨fun j hj => ?_, ?_⟩⟩
    · exact hbytes j (hj.trans hshort)
    · rw [hbytes _ hshort, List.getD_eq_getElem?_getD, List.getElem?_eq_none (Nat.le_refl _)]
      rfl
  · obtain ⟨-, hp, -⟩ := (hinv.thread t).result name (some p) hr
    obtain ⟨-, hp', -⟩ := (hinv.thread t').result name' (some p) hr'
    exact hinv.own t t' p hp hp'

/-- The loop that copies the value runs to its end. -/
theorem reach_copied [DecidableEq T] {environ : List (List Byte)} {t : T} {name value : List Byte}
    {p : ℕ} (n : ℕ) {s : State T} {i : ℕ} {buf : ℕ → Byte} (hi : i + n = MAXSTRINGSZ - 1)
    (hpc : s.pc t = .copying name p value i) (hbuf : s.mem p = some buf) :
    ∃ s', ReflTransGen (Step environ) s s' ∧
      s'.pc = Function.update s.pc t (.copying name p value (MAXSTRINGSZ - 1)) := by
  induction n generalizing s i buf with
  | zero =>
    refine ⟨s, .refl, (Function.update_eq_self_iff.mpr ?_).symm⟩
    rw [hpc, ← hi, Nat.add_zero]
  | succ n ih =>
    obtain ⟨s', hreach, hpc'⟩ := ih (s := { s.go t (.copying name p value (i + 1)) with
      mem := Function.update s.mem p (some (Function.update buf i (value.getD i 0))) })
      (by omega) (Function.update_self _ _ _) (Function.update_self _ _ _)
    refine ⟨s', .head (.copy hpc (by omega) hbuf) hreach, ?_⟩
    rw [hpc']
    exact Function.update_idem _ _ _

/-- One thread has its value while another one still waits for the mutex. -/
theorem getenv_reentrant_waiting : ∃ (s : State Bool) (p : ℕ) (buf : ℕ → Byte),
    Reachable [[65, 61, 66]] s ∧ s.pc true = .locking [65] ∧
      s.result false = some ([65], some p) ∧ s.mem p = some buf ∧ StringIn buf [66] ∧
      ∃ s', Step [[65, 61, 66]] s s' := by
  have h₀ : Reachable [[65, 61, 66]] (start Bool) := .refl
  have h₁ := h₀.tail (@Step.call _ _ _ _ false [65] rfl)
  have h₂ := h₁.tail (@Step.call _ _ _ _ true [65] rfl)
  have h₃ := h₂.tail (.lock (t := false) rfl rfl)
  have h₄ := h₃.tail (.getspecific (t := false) rfl)
  have h₅ := h₄.tail (@Step.malloc _ _ _ _ false _ 0 (fun _ => 7) rfl rfl)
  obtain ⟨s₆, h₆, hcopying, hwaiting, hbuf⟩ : ∃ s : State Bool, Reachable [[65, 61, 66]] s ∧
      s.pc false = .copying [65] 0 [66] 0 ∧ s.pc true = .locking [65] ∧
      s.mem 0 = some fun _ => 7 :=
    ⟨_, h₅.tail (.search (t := false) rfl), rfl, rfl, rfl⟩
  obtain ⟨s₇, h₇, hpc⟩ := reach_copied (MAXSTRINGSZ - 1) (Nat.zero_add _) hcopying hbuf
  have h₈ := (h₆.trans h₇).tail (.copied (t := false) (by rw [hpc, Function.update_self]) le_rfl)
  have h₉ := h₈.tail (@Step.unlock _ _ _ _ false [65] (some 0)
    (Function.update_self false _ s₇.pc))
  have htrue : s₇.pc true = .locking [65] := by
    rw [hpc, Function.update_of_ne (by decide), hwaiting]
  obtain ⟨-, hvalue, -, -, hgo⟩ := getenv_reentrant [[65, 61, 66]] _ h₉
  obtain ⟨value, buf, hfound, hmem, -, hstring⟩ := hvalue false [65] 0
    (Function.update_self false _ s₇.result)
  obtain rfl : [66] = value := Option.some.inj hfound
  exact ⟨_, 0, buf, h₉, htrue, Function.update_self false _ s₇.result, hmem, hstring (by decide),
    hgo true fun hidle => nomatch htrue.symm.trans hidle⟩

end Apue.Getenv
