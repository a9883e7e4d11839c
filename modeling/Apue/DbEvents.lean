import Apue.DbWrites

/-!
The steps that change no file: lock calls, the start and the end of an
operation, and the end of a process. An operation on a key takes effect on the
map when it obtains the lock of its chain.
-/
namespace Apue.Db

open Programs Decimal ByteFiles Pointers Threads

variable {P : Type}

/-- The lock events that are not the lock of a chain. -/
theorem lockEvent_other {r : Region} (hr : r.rank = 1) (p : P) (op : Op) (type : LockType) :
    lockEvent (.sys p op (.setlkw r.fd type r.start r.len)) = none := by
  cases op with
  | keyed o => cases r <;> first | rfl | simp [Region.rank] at hr
  | rewind => rfl
  | nextrec => rfl

theorem lockEvent_chain {h : ℕ} (p : P) (o : KeyOp) (type : LockType) :
    lockEvent (.sys p (.keyed o) (.setlkw .idx type (cell h) 1)) = some (p, o) := by
  simp only [lockEvent, if_neg (cell_ne_free h)]

/-- A deletion stays possible if the process that makes it keeps its locks. -/
theorem Deletion.Locked.of_keep {held held' : P → Held} {place : ℕ → Place P} {del : Deletion}
    (hlock : del.Locked held place)
    (hkeep : ∀ q h, del ≠ .idle → held q .free = some .wrlck →
      held q (.chain h) = some .wrlck →
      held' q .free = some .wrlck ∧ held' q (.chain h) = some .wrlck) :
    del.Locked held' place := by
  cases del with
  | idle => trivial
  | blanked o =>
    obtain ⟨q, h, hfree, hchain, hpl⟩ := hlock
    obtain ⟨hfree', hchain'⟩ := hkeep q h (nofun) hfree hchain
    exact ⟨q, h, hfree', hchain', hpl⟩
  | unlinked h x v =>
    obtain ⟨hh, hpl, q, hfree, hchain⟩ := hlock
    obtain ⟨hfree', hchain'⟩ := hkeep q h (nofun) hfree hchain
    exact ⟨hh, hpl, q, hfree', hchain'⟩

/-- A step that touches only the locks of `p`, its expectation and the map on
chains that `q` has not locked. -/
theorem Rely.of_locks [DecidableEq P] {p q : P} (hq : q ≠ p) (w : DbWorld P) {e : Event sig P Op Res}
    (he : ¬ e.Bounds q) (s : Shared P) (held : Held) {abs : Map}
    {expect : P → Option (KeyOp × Res)} (hexpect : expect q = w.ghost.expect q)
    (habs : ∀ h, w.ghost.held q (.chain h) ≠ none → ∀ key, hashOf key = h →
      abs key = w.ghost.abs key) :
    Rely q w (w.after e s { w.ghost with
      held := Function.update w.ghost.held p held, abs := abs, expect := expect }) :=
  { Rely.refl q w with
    held := by
      change Function.update w.ghost.held p held q = _
      exact Function.update_of_ne hq _ _
    expect := hexpect
    hist := ⟨[(e, s)], rfl, fun x hx => by
      rw [List.mem_singleton.mp hx]
      exact he⟩
    chain := fun h hh => ⟨rfl, habs h hh⟩ }

variable [DecidableEq P] {fuel : ℕ} {allowed : P → Op → Prop} {w : DbWorld P} {p : P}
variable {s : Shared P} (op : Op) {c : Call}

/-- The locks after process `p` has set one region. -/
def setHeld (held : P → Held) (p : P) (r : Region) (value : Option LockType) : P → Held :=
  Function.update held p (Function.update (held p) r value)

omit w in
theorem setHeld_of_ne {held : P → Held} {q : P} (hq : q ≠ p) (r : Region)
    (value : Option LockType) : setHeld held p r value q = held q :=
  Function.update_of_ne hq _ _

theorem setHeld_self (held : P → Held) (r : Region) (value : Option LockType) :
    setHeld held p r value p = Function.update (held p) r value :=
  Function.update_self _ _ _

/-- Setting one region, with what it means for the map. -/
private theorem moves_setHeld (hinv : Inv fuel allowed w) {r : Region} (hr : r.Valid)
    {value : Option LockType} (hfiles : s.files = w.shared.files)
    (hlocks : s.locks = setLocks w.shared.locks p r.fd r.start r.len value)
    (hcompat : ∀ q, q ≠ p → ∀ t t', value = some t → w.ghost.held q r = some t' →
      Compatible t t')
    (hdel : w.ghost.del.Locked (setHeld w.ghost.held p r value) w.ghost.place)
    {abs : Map} {expect : P → Option (KeyOp × Res)}
    (hagrees : Agrees (setHeld w.ghost.held p r value) abs w.ghost.chain w.ghost.st)
    (hserial : SerialOk (w.hist ++ [(.sys p op c, s)]) abs expect)
    (hexpect : ∀ q, q ≠ p → expect q = w.ghost.expect q)
    (habs : ∀ q, q ≠ p → ∀ h, w.ghost.held q (.chain h) ≠ none → ∀ key, hashOf key = h →
      abs key = w.ghost.abs key) :
    (outline fuel allowed).Moves p w (w.after (.sys p op c) s { w.ghost with
      held := setHeld w.ghost.held p r value, abs := abs, expect := expect }) := by
  refine ⟨?_, fun q hq => Rely.of_locks hq w id s _ (hexpect q hq) (habs q hq)⟩
  have hheld : ∀ q t, setHeld w.ghost.held p r value q r = some t →
      q = p ∧ value = some t ∨ q ≠ p ∧ w.ghost.held q r = some t := by
    intro q t ht
    by_cases hq : q = p
    · subst hq
      rw [setHeld_self, Function.update_self] at ht
      exact Or.inl ⟨rfl, ht⟩
    · rw [setHeld_of_ne hq] at ht
      exact Or.inr ⟨hq, ht⟩
  have hother : ∀ q i, i ≠ r → setHeld w.ghost.held p r value q i = w.ghost.held q i := by
    intro q i hi
    by_cases hq : q = p
    · subst hq
      rw [setHeld_self, Function.update_of_ne hi]
    · rw [setHeld_of_ne hq]
  exact {
    files := hfiles.trans hinv.files
    records := hinv.records
    lists := hinv.lists
    locks := {
      regional := by
        have := regional_setLocks hinv.locks.regional p r hr value
        rw [← hlocks] at this
        exact this
      compat := by
        intro a b hab i t t' ht ht'
        change setHeld w.ghost.held p r value a i = some t at ht
        change setHeld w.ghost.held p r value b i = some t' at ht'
        by_cases hi : i = r
        · subst hi
          rcases hheld a t ht with ⟨ha, hv⟩ | ⟨ha, hta⟩
          · rcases hheld b t' ht' with ⟨hb, -⟩ | ⟨hb, htb⟩
            · exact absurd (ha.trans hb.symm) hab
            · exact hcompat b hb t t' hv htb
          · rcases hheld b t' ht' with ⟨hb, hv⟩ | ⟨hb, htb⟩
            · exact (hcompat a ha t' t hv hta).symm
            · exact hinv.locks.compat a b hab i t t' hta htb
        · rw [hother a i hi] at ht
          rw [hother b i hi] at ht'
          exact hinv.locks.compat a b hab i t t' ht ht'
      deleting := hdel }
    agrees := hagrees
    serial := hserial
    origins := hinv.origins.sys p op c s
    scans := hinv.scans.sys p op c s }

private theorem ne_chain_of_rank {r : Region} (hr : r.rank = 1) (h : ℕ) : Region.chain h ≠ r := by
  rintro rfl
  simp [Region.rank] at hr

private theorem setHeld_chain {r : Region} (hr : r.rank = 1) (held : P → Held)
    (value : Option LockType) (q : P) (h : ℕ) :
    setHeld held p r value q (.chain h) = held q (.chain h) := by
  by_cases hq : q = p
  · subst hq
    rw [setHeld_self, Function.update_of_ne (ne_chain_of_rank hr h)]
  · rw [setHeld_of_ne hq]

theorem Agrees.setHeld_other {r : Region} (hr : r.rank = 1) {held : P → Held} {abs : Map}
    {chain : ℕ → List ℕ} {st : Store} (h : Agrees held abs chain st)
    (value : Option LockType) : Agrees (setHeld held p r value) abs chain st := by
  intro i hi hnone
  refine h i hi fun q => ?_
  rw [← setHeld_chain (p := p) hr held value q i]
  exact hnone q

/-- Locking the free list or one of the ends of the files. -/
theorem moves_lockOther (hinv : Inv fuel allowed w) {r : Region} (hr : r.Valid)
    (hrank : r.rank = 1) {type : LockType} (hfiles : s.files = w.shared.files)
    (hlocks : s.locks = setLocks w.shared.locks p r.fd r.start r.len (some type))
    (hgranted : Granted w.shared.locks p (.setlkw r.fd type r.start r.len))
    (hnone : w.ghost.held p r = none) :
    (outline fuel allowed).Moves p w
      (w.after (.sys p op (.setlkw r.fd type r.start r.len)) s
        { w.ghost with held := setHeld w.ghost.held p r (some type) }) := by
  have hg := (granted_region hinv.locks.regional p r hr type).mp hgranted
  refine moves_setHeld op hinv hr hfiles hlocks ?_ ?_ (hinv.agrees.setHeld_other hrank _)
    (hinv.serial.sys (lockEvent_other hrank p op type) s) (fun _ _ => rfl) (fun _ _ _ _ _ _ => rfl)
  · intro q hq t t' ht ht'
    obtain rfl := Option.some.inj ht
    exact hg q hq t' ht'
  · -- the process that is deleting a record keeps its locks
    have hkeep : ∀ q, w.ghost.held q .free = some .wrlck →
        setHeld w.ghost.held p r (some type) q .free = some .wrlck := by
      intro q hq
      by_cases hqp : q = p
      · subst hqp
        have hne : Region.free ≠ r := by
          rintro rfl
          rw [hnone] at hq
          cases hq
        rw [setHeld_self, Function.update_of_ne hne]
        exact hq
      · rw [setHeld_of_ne hqp]
        exact hq
    refine hinv.locks.deleting.of_keep fun q h _ hfree hchain => ⟨hkeep q hfree, ?_⟩
    exact (setHeld_chain hrank _ _ q h).trans hchain

/-- Unlocking one of these regions, when `p` is not in the middle of a deletion. -/
theorem moves_unlockOther (hinv : Inv fuel allowed w) {r : Region} (hr : r.Valid)
    (hrank : r.rank = 1) (hfiles : s.files = w.shared.files)
    (hlocks : s.locks = setLocks w.shared.locks p r.fd r.start r.len none)
    (hdel : w.ghost.held p .free = some .wrlck → w.ghost.del = .idle) :
    (outline fuel allowed).Moves p w
      (w.after (.sys p op (.unlck r.fd r.start r.len)) s
        { w.ghost with held := setHeld w.ghost.held p r none }) := by
  refine moves_setHeld op hinv hr hfiles hlocks (fun _ _ _ _ ht => nomatch ht) ?_
    (hinv.agrees.setHeld_other hrank _) (hinv.serial.sys ?_ s) (fun _ _ => rfl)
    (fun _ _ _ _ _ _ => rfl)
  · refine hinv.locks.deleting.of_keep fun q h hd hfree hchain => ?_
    rw [setHeld_of_ne fun hqp : q = p => hd (hdel (hqp ▸ hfree))]
    exact ⟨hfree, hchain⟩
  · cases op <;> rfl

theorem SerialOk.lockChain {hist : DbHist P} {abs : Map} {expect : P → Option (KeyOp × Res)}
    (hs : SerialOk hist abs expect) (hnone : expect p = none) (o : KeyOp) (h : ℕ)
    (type : LockType) (s : Shared P) :
    SerialOk (hist ++ [(.sys p (.keyed o) (.setlkw .idx type (cell h) 1), s)]) (mapOp o abs).1
      (Function.update expect p (some (o, (mapOp o abs).2))) := by
  intro hno
  obtain ⟨habs, hans⟩ := hs ((Hist.noExit_append _ _).mp hno).1
  rw [lockOrder_concat, lockEvent_chain, Option.toList_some]
  refine ⟨?_, fun q => ?_⟩
  · rw [serialRun_concat, ← habs]
  · rw [serialAnswers_concat, hans q, answers_concat, List.append_nil, ← habs, List.append_assoc]
    congr 1
    by_cases hq : q = p
    · subst hq
      rw [hnone, if_pos rfl, Function.update_self]
      rfl
    · rw [if_neg (Ne.symm hq), Function.update_of_ne hq, List.append_nil]

/-- Locking the chain of its key, an operation takes effect. -/
theorem moves_lockChain (hinv : Inv fuel allowed w) {o : KeyOp} {type : LockType}
    (htype : type = .rdlck → ∃ key, o = .fetch key) (hfiles : s.files = w.shared.files)
    (hlocks : s.locks = setLocks w.shared.locks p .idx (cell (hashOf o.key)) 1 (some type))
    (hgranted : Granted w.shared.locks p (.setlkw .idx type (cell (hashOf o.key)) 1))
    (hnone : w.ghost.held p = noLocks) (hexpect : w.ghost.expect p = none) :
    (∀ key, hashOf key = hashOf o.key →
      w.ghost.abs key = w.ghost.st.lookup (w.ghost.chain (hashOf o.key)) key) ∧
    (outline fuel allowed).Moves p w
      (w.after (.sys p (.keyed o) (.setlkw .idx type (cell (hashOf o.key)) 1)) s
        { w.ghost with
          held := setHeld w.ghost.held p (.chain (hashOf o.key)) (some type)
          abs := (mapOp o w.ghost.abs).1
          expect := Function.update w.ghost.expect p (some (o, (mapOp o w.ghost.abs).2)) }) := by
  have hh := hashOf_lt o.key
  have hg := (granted_region hinv.locks.regional p (.chain (hashOf o.key)) hh type).mp hgranted
  have hwr : ∀ q, w.ghost.held q (.chain (hashOf o.key)) ≠ some .wrlck := by
    intro q hq
    by_cases hqp : q = p
    · subst hqp
      rw [hnone] at hq
      cases hq
    · exact nomatch (hg q hqp _ hq).2
  refine ⟨fun key hk => hinv.agrees _ hh hwr key hk, ?_⟩
  have hfetch : type = .rdlck → (mapOp o w.ghost.abs).1 = w.ghost.abs := by
    intro ht
    obtain ⟨key, rfl⟩ := htype ht
    rfl
  have hkey : ∀ i, i ≠ hashOf o.key → ∀ key, hashOf key = i →
      (mapOp o w.ghost.abs).1 key = w.ghost.abs key := by
    rintro i hi key rfl
    refine mapOp_other o _ fun he => hi (by rw [he])
  refine moves_setHeld (.keyed o) hinv (r := .chain (hashOf o.key)) hh hfiles hlocks ?_ ?_ ?_
    (hinv.serial.lockChain hexpect o _ type s) (fun q hq => Function.update_of_ne hq _ _) ?_
  · intro q hq t t' ht ht'
    obtain rfl := Option.some.inj ht
    exact hg q hq t' ht'
  · refine hinv.locks.deleting.of_keep fun q h _ hfree hchain => ?_
    have hqp : q ≠ p := by
      rintro rfl
      rw [hnone] at hfree
      cases hfree
    rw [setHeld_of_ne hqp]
    exact ⟨hfree, hchain⟩
  · intro i hi hno key hk
    by_cases hih : i = hashOf o.key
    · subst hih
      have hp := hno p
      rw [setHeld_self, Function.update_self] at hp
      have ht : type = .rdlck := by
        cases type with
        | rdlck => rfl
        | wrlck => exact absurd rfl hp
      rw [hfetch ht]
      exact hinv.agrees _ hi hwr key hk
    · rw [hkey i hih key hk]
      refine hinv.agrees i hi (fun q hq => ?_) key hk
      by_cases hqp : q = p
      · subst hqp
        rw [hnone] at hq
        cases hq
      · exact hno q ((setHeld_of_ne hqp _ _ ▸ rfl : _ = w.ghost.held q (.chain i)).trans hq)
  · intro q hq h hheld key hk
    by_cases hih : h = hashOf o.key
    · subst hih
      obtain ⟨t, ht⟩ := Option.ne_none_iff_exists'.mp hheld
      rw [hfetch (hg q hq t ht).1]
    · exact hkey h hih key hk

/-- The unlock at the end of an operation: the chain has the contents that the
map says. -/
theorem moves_unlockChain (hinv : Inv fuel allowed w) {h : ℕ} (hh : h < NHASH_DEF)
    (hfiles : s.files = w.shared.files)
    (hlocks : s.locks = setLocks w.shared.locks p .idx (cell h) 1 none)
    (hnofree : w.ghost.held p .free ≠ some .wrlck)
    (hagree : ∀ key, hashOf key = h → w.ghost.abs key = w.ghost.st.lookup (w.ghost.chain h) key) :
    (outline fuel allowed).Moves p w (w.after (.sys p op (.unlck .idx (cell h) 1)) s
      { w.ghost with held := setHeld w.ghost.held p (.chain h) none }) := by
  refine moves_setHeld op hinv (r := .chain h) hh hfiles hlocks (fun _ _ _ _ ht => nomatch ht) ?_ ?_
    (hinv.serial.sys ?_ s) (fun _ _ => rfl) (fun _ _ _ _ _ _ => rfl)
  · refine hinv.locks.deleting.of_keep fun q i _ hfree hchain => ?_
    rw [setHeld_of_ne fun hqp : q = p => hnofree (hqp ▸ hfree)]
    exact ⟨hfree, hchain⟩
  · intro i hi hno key hk
    by_cases hih : i = h
    · subst hih
      exact hagree key hk
    · refine hinv.agrees i hi (fun q hq => hno q ?_) key hk
      by_cases hqp : q = p
      · subst hqp
        rw [setHeld_self, Function.update_of_ne fun he => hih (Region.chain.inj he)]
        exact hq
      · rw [setHeld_of_ne hqp]
        exact hq
  · cases op <;> rfl

theorem SerialOk.call {hist : DbHist P} {abs : Map} {expect : P → Option (KeyOp × Res)}
    (h : SerialOk hist abs expect) (p : P) (op : Op) (s : Shared P) :
    SerialOk (hist ++ [(.call p op, s)]) abs expect := by
  intro hno
  obtain ⟨habs, hans⟩ := h ((Hist.noExit_append _ _).mp hno).1
  have hlock : lockEvent (.call p op) = none := rfl
  rw [lockOrder_concat, hlock, Option.toList_none, List.append_nil]
  refine ⟨habs, fun q => ?_⟩
  rw [answers_concat, List.append_nil]
  exact hans q

theorem SerialOk.ret {hist : DbHist P} {abs : Map} {expect : P → Option (KeyOp × Res)}
    (h : SerialOk hist abs expect) {r : Res} (hexpect : expect p = match op with
      | .keyed o => some (o, r)
      | _ => none) (s : Shared P) :
    SerialOk (hist ++ [(.ret p op r, s)]) abs (Function.update expect p none) := by
  intro hno
  obtain ⟨habs, hans⟩ := h ((Hist.noExit_append _ _).mp hno).1
  have hlock : lockEvent (.ret p op r) = none := rfl
  rw [lockOrder_concat, hlock, Option.toList_none, List.append_nil]
  refine ⟨habs, fun q => ?_⟩
  rw [hans q, answers_concat, List.append_assoc]
  congr 1
  by_cases hq : q = p
  · subst hq
    rw [Function.update_self, hexpect]
    cases op with
    | keyed o =>
      simp only [if_true]
      rfl
    | rewind => rfl
    | nextrec => rfl
  · rw [Function.update_of_ne hq]
    cases op with
    | keyed o => simp only [if_neg (Ne.symm hq), List.nil_append]
    | rewind => rfl
    | nextrec => rfl

/-- Process `p` starts an operation. -/
theorem moves_call (hinv : Inv fuel allowed w)
    (hnone : ∀ o ∈ w.ghost.st.offs, w.ghost.place o ≠ .proc p) (op : Op) :
    (outline fuel allowed).Moves p w (w.after (.call p op) w.shared w.ghost) := by
  constructor
  · exact {
      files := hinv.files
      records := hinv.records
      lists := hinv.lists
      locks := hinv.locks
      agrees := hinv.agrees
      serial := hinv.serial.call p op w.shared
      origins := {
        begun := fun o ho h hpl hdel =>
          (hinv.origins.begun o ho h hpl hdel).mono (List.subset_append_left _ _)
        making := fun o ho q hpl hb =>
          (hinv.origins.making o ho q hpl hb).extend _ fun e he => by
            rw [List.mem_singleton.mp he]
            exact fun hp : p = q => hnone o ho (hp ▸ hpl) }
      scans := hinv.scans.extend _ _ fun _ _ _ _ he => by cases he }
  · intro q hq
    exact { Rely.refl q w with
      hist := ⟨[(.call p op, w.shared)], rfl, fun e he => by
        rw [List.mem_singleton.mp he]
        exact fun hb => hq hb.symm⟩ }

/-- Process `p` returns from an operation with the answer that it owes. -/
theorem moves_ret (hinv : Inv fuel allowed w) {r : Res}
    (hnone : ∀ o ∈ w.ghost.st.offs, w.ghost.place o ≠ .proc p)
    (hexpect : w.ghost.expect p = match op with
      | .keyed o => some (o, r)
      | _ => none)
    (hscan : ∀ key data, Scanner allowed p → op = .nextrec → r = .record (some (key, data)) →
      Begun w.hist key data ∧
        ((∀ x ∈ w.hist, x.2.files.Near) → BoundDuring fuel p w.hist key data)) :
    (outline fuel allowed).Moves p w (w.after (.ret p op r) w.shared
      { w.ghost with expect := Function.update w.ghost.expect p none }) := by
  constructor
  · exact {
      files := hinv.files
      records := hinv.records
      lists := hinv.lists
      locks := hinv.locks
      agrees := hinv.agrees
      serial := hinv.serial.ret op hexpect w.shared
      origins := {
        begun := fun o ho h hpl hdel =>
          (hinv.origins.begun o ho h hpl hdel).mono (List.subset_append_left _ _)
        making := fun o ho q hpl hb =>
          (hinv.origins.making o ho q hpl hb).extend _ fun e he => by
            rw [List.mem_singleton.mp he]
            exact fun hp : p = q => hnone o ho (hp ▸ hpl) }
      scans := hinv.scans.extend _ _ fun q key data hs he => by
        obtain ⟨rfl, rfl, rfl⟩ := Event.ret.inj he
        exact hscan key data hs rfl rfl }
  · intro q hq
    exact { Rely.refl q w with
      expect := by
        change Function.update w.ghost.expect p none q = _
        exact Function.update_of_ne hq _ _
      hist := ⟨[(.ret p op r, w.shared)], rfl, fun e he => by
        rw [List.mem_singleton.mp he]
        exact fun hb => hq hb.symm⟩ }

theorem Agrees.exit {held : P → Held} {abs : Map} {chain : ℕ → List ℕ} {st : Store}
    (h : Agrees held abs chain st) (p : P) :
    Agrees (Function.update held p noLocks)
      (fun key => if held p (.chain (hashOf key)) = some .wrlck then
        st.lookup (chain (hashOf key)) key else abs key) chain st := by
  rintro i hi hno key rfl
  by_cases hp : held p (.chain (hashOf key)) = some .wrlck
  · exact if_pos hp
  · refine (if_neg hp).trans (h _ hi (fun q hq => ?_) key rfl)
    by_cases hqp : q = p
    · exact hp (hqp ▸ hq)
    · refine hno q ?_
      rw [Function.update_of_ne hqp]
      exact hq

/-- Process `p` is not in the middle of a deletion, and it is not storing a key in
a record that a pointer could lead to. -/
structure MayStop (p : P) (w : DbWorld P) : Prop where
  not_free : w.ghost.held p .free ≠ some .wrlck
  far : ∀ o ∈ w.ghost.st.offs, w.ghost.place o = .proc p → ¬ Blank (w.ghost.st.body o).key →
    PTR_MAX < o

omit [DecidableEq P] in
theorem MayStop.stable {w' : DbWorld P} (h : MayStop p w) (hr : Rely p w w') : MayStop p w' where
  not_free := by
    rw [hr.held]
    exact h.not_free
  far o ho hpl hkey := by
    obtain ⟨ho', hpl'⟩ := hr.owned o ho hpl
    have hbody := (hr.recs o ho' (by rw [hpl']; exact rfl)).1
    exact h.far o ho' hpl' (hbody ▸ hkey)

/-- Process `p` is stopped. Its locks are gone, and what it had in its hands
stays there; the chains it had locked keep the contents they have. -/
theorem moves_exit (hinv : Inv fuel allowed w) (hstop : MayStop p w)
    (op : Op) : ∃ g, (outline fuel allowed).Moves p w
      (w.after (.exit p op) (exitProcess p w.shared) g) := by
  have hnotwr : ∀ q, q ≠ p → ∀ h, w.ghost.held q (.chain h) ≠ none →
      w.ghost.held p (.chain h) ≠ some .wrlck := by
    intro q hq h hh hp
    obtain ⟨t, ht⟩ := Option.ne_none_iff_exists'.mp hh
    exact nomatch (hinv.locks.compat p q hq.symm _ _ _ hp ht).1
  refine ⟨{ w.ghost with
    held := Function.update w.ghost.held p noLocks
    abs := fun key => if w.ghost.held p (.chain (hashOf key)) = some .wrlck then
      w.ghost.st.lookup (w.ghost.chain (hashOf key)) key else w.ghost.abs key }, ?_, ?_⟩
  · exact {
      files := hinv.files
      records := hinv.records
      lists := hinv.lists
      locks := {
        regional := fun q => by
          funext fd b
          change (if q = p then none else w.shared.locks q fd b) =
            tableOf (Function.update w.ghost.held p noLocks q) fd b
          by_cases hq : q = p
          · rw [if_pos hq, hq, Function.update_self, tableOf_noLocks]
          · rw [if_neg hq, Function.update_of_ne hq, hinv.locks.regional q]
        compat := fun a b hab i t t' ht ht' => by
          change Function.update w.ghost.held p noLocks a i = some t at ht
          change Function.update w.ghost.held p noLocks b i = some t' at ht'
          have hne : ∀ q t, Function.update w.ghost.held p noLocks q i = some t → q ≠ p := by
            rintro q t hq rfl
            rw [Function.update_self] at hq
            cases hq
          rw [Function.update_of_ne (hne a t ht)] at ht
          rw [Function.update_of_ne (hne b t' ht')] at ht'
          exact hinv.locks.compat a b hab i t t' ht ht'
        deleting := by
          refine hinv.locks.deleting.of_keep fun q i _ hfree hchain => ?_
          change Function.update w.ghost.held p noLocks q _ = _ ∧
            Function.update w.ghost.held p noLocks q _ = _
          rw [Function.update_of_ne fun hqp : q = p => hstop.not_free (hqp ▸ hfree)]
          exact ⟨hfree, hchain⟩ }
      agrees := hinv.agrees.exit p
      serial := fun hno => absurd rfl
        (hno (.exit p op, exitProcess p w.shared) (List.mem_append_right _ List.mem_cons_self) p op)
      origins := {
        begun := fun o ho h hpl hdel =>
          (hinv.origins.begun o ho h hpl hdel).mono (List.subset_append_left _ _)
        making := fun o ho q hpl hb => by
          have hmaking := hinv.origins.making o ho q hpl hb
          by_cases hq : q = p
          · subst hq
            exact Or.inr ⟨hstop.far o ho hpl hb, hmaking.begun.mono (List.subset_append_left _ _)⟩
          · refine hmaking.extend _ fun e he => ?_
            rw [List.mem_singleton.mp he]
            exact fun hp : p = q => hq hp.symm }
      scans := hinv.scans.extend _ _ fun _ _ _ _ he => by cases he }
  · intro q hq
    refine Rely.of_locks (e := .exit p op) hq w (fun hp : p = q => hq hp.symm) _ noLocks rfl
      fun h hh key hk => ?_
    subst hk
    exact if_neg (hnotwr q hq _ hh)

end Apue.Db
