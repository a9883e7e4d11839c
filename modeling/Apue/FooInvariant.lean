import Apue.FooChains
import Mathlib.Data.List.Count

/-!
What holds in all states of the table. The count of an object is the number of references
to it as an int, an object is in its chain unless the thread that allocates it or the one that
releases the last reference has it for itself, and a thread that works on an object has a
reference to it or keeps the lock of the table.
-/
namespace Apue.FooTable

open Programs Pointers

theorem toInt_add (n m : ℤ) : toInt (toInt n + m) = toInt (n + m) := Int.bmod_add_bmod

theorem toInt_sub (n m : ℤ) : toInt (toInt n - m) = toInt (n - m) := Int.bmod_sub_bmod

/-- An int has no number from 2^31 on. -/
theorem toInt_eq_self_iff {n : ℕ} : toInt n = n ↔ n < 2 ^ 31 := by
  refine ⟨fun h => ?_, fun h => Int.bmod_eq_of_le (by omega) (by omega)⟩
  have hlt : toInt n < _ := Int.bmod_lt (by decide)
  omega

/-- The object that a thread has for itself. -/
def Pc.owns : Pc → Option ℕ
  | .alloc fp => some fp
  | .releFree fp => some fp
  | _ => none

namespace State

/-- What a thread can rely on. -/
def ThreadOk (v : Version) (s : State) (chain : ℕ → List ℕ) (t : ℕ) : Pc → Prop
  | .idle => True
  | .alloc fp => (t, fp) ∈ s.held ∧ s.refs fp = 1 ∧ ∀ i, fp ∉ chain i
  | .allocLinked fp => s.hashlock = some t ∧ (t, fp) ∈ s.held
  | .allocInit fp => (t, fp) ∈ s.held
  | .find _ => True
  | .findHold fp => s.hashlock = some t ∧ ∃ i, fp ∈ chain i
  | .hold fp => (t, fp) ∈ s.held
  | .rele fp => (t, fp) ∈ s.held
  | .releWindow fp => v = .mutex2 ∧ (t, fp) ∈ s.held
  | .releHash fp => v = .mutex2 ∧ s.hashlock = some t ∧ (t, fp) ∈ s.held
  | .releFree fp => s.foo fp ≠ none ∧ (∀ i, fp ∉ chain i) ∧
      match v with
      | .mutex2 => (t, fp) ∈ s.held ∧ s.refs fp = 1
      | .mutex3 => s.refs fp = 0

/-- The records of what was taken out of its chain and freed. -/
structure Records (s : State) : Prop where
  fresh : ∀ a o, s.foo a = some o → o.serial < s.serials
  distinct : ∀ a b o p, s.foo a = some o → s.foo b = some p → o.serial = p.serial → a = b
  alive : ∀ a o, s.foo a = some o → o.serial ∉ s.freed
  dying : ∀ a o, s.foo a = some o →
    (o.serial ∈ s.unlinked.map Prod.fst ↔ ∃ t, s.thread t = .releFree a)
  known : ∀ n ∈ s.unlinked.map Prod.fst, n < s.serials
  accounted : ∀ n < s.serials, n ∈ s.freed ∨ ∃ a o, s.foo a = some o ∧ o.serial = n
  order : ∀ n ∈ s.freed, n ∈ s.unlinked.map Prod.fst
  last : ∀ e ∈ s.unlinked, e.2 = 1
  unlinkedOnce : (s.unlinked.map Prod.fst).Nodup
  freedOnce : s.freed.Nodup

structure Inv (v : Version) (s : State) (chain : ℕ → List ℕ) : Prop where
  shape : s.Shape chain
  noFault : s.fault = false
  count : ∀ a o, s.foo a = some o → o.f_count = toInt (s.refs a)
  held : ∀ e ∈ s.held, s.foo e.2 ≠ none
  thread : ∀ t, s.ThreadOk v chain t (s.thread t)
  placed : ∀ a o, s.foo a = some o → a ∈ chain (hash o.f_id) ∨ ∃ t, (s.thread t).owns = some a
  single : ∀ t u a, s.thread t = .releFree a → s.thread u = .releFree a → t = u
  records : s.Records

theorem Inv.initial (v : Version) : State.initial.Inv v fun _ => [] where
  shape := ⟨fun _ => rfl, fun _ => List.nodup_nil, nofun, rfl, nofun⟩
  noFault := rfl
  count := nofun
  held := nofun
  thread := fun _ => trivial
  placed := nofun
  single := nofun
  records := ⟨nofun, nofun, nofun, nofun, nofun, nofun, nofun, nofun, List.nodup_nil, List.nodup_nil⟩

/-- The parts of an object that a step on its count or its lock leaves alone. -/
def skeleton (o : Foo) : ℤ × ℕ × ℕ := (o.f_id, o.f_next, o.serial)

variable {v : Version} {s s' : State} {chain : ℕ → List ℕ} {t fp : ℕ} {o : Foo}

theorem exists_of_skeleton (h : ∀ a, (s'.foo a).map skeleton = (s.foo a).map skeleton) {a : ℕ}
    (ho : s.foo a = some o) : ∃ o', s'.foo a = some o' ∧ o'.f_id = o.f_id ∧
      o'.f_next = o.f_next ∧ o'.serial = o.serial := by
  have ha := h a
  rw [ho] at ha
  obtain ⟨o', ho', hskeleton⟩ := Option.map_eq_some_iff.mp ha
  simp only [skeleton, Prod.mk.injEq] at hskeleton
  exact ⟨o', ho', hskeleton⟩

theorem none_of_skeleton (h : ∀ a, (s'.foo a).map skeleton = (s.foo a).map skeleton) {a : ℕ} :
    s'.foo a = none ↔ s.foo a = none := by
  rw [← Option.map_eq_none_iff (f := skeleton), h a, Option.map_eq_none_iff]

theorem Shape.congr (h : s.Shape chain)
    (hfoo : ∀ a, (s'.foo a).map skeleton = (s.foo a).map skeleton)
    (hfh : s'.fh = s.fh) (hlive : s'.live = s.live) : s'.Shape chain := by
  have hptr : s'.ptr = s.ptr := by
    funext a
    cases ho : s.foo a with
    | none =>
      have ho' := (none_of_skeleton hfoo).mpr ho
      simp [ptr, ho, ho']
    | some o =>
      obtain ⟨o', ho', -, hnext, -⟩ := exists_of_skeleton hfoo ho
      rw [ptr_eq ho, ptr_eq ho', hnext]
  refine ⟨fun i => ?_, h.nodup, fun i a ha => ?_, (none_of_skeleton hfoo).mpr h.null,
    fun a o' ho' => ?_⟩
  · rw [hptr, hfh]
    exact h.path i
  · obtain ⟨o, ho, hi⟩ := h.hashed i a ha
    obtain ⟨o', ho', hid, -⟩ := exists_of_skeleton hfoo ho
    exact ⟨o', ho', by rw [hid]; exact hi⟩
  · rw [hlive]
    obtain ⟨o, ho, -⟩ := exists_of_skeleton (fun a => (hfoo a).symm) ho'
    exact h.live a o ho

theorem refs_pos {t a : ℕ} (h : (t, a) ∈ s.held) : 0 < s.refs a :=
  List.countP_pos_iff.mpr ⟨(t, a), h, by simp⟩

/-- The only reference to an object is held by one thread. -/
theorem eq_of_refs_one {t u a : ℕ} (hone : s.refs a = 1) (hu : (u, a) ∈ s.held)
    (ht : (t, a) ∈ s.held) : t = u := by
  rw [refs, List.countP_eq_length_filter, List.length_eq_one_iff] at hone
  obtain ⟨e, he⟩ := hone
  have hmem : ∀ x, (x, a) ∈ s.held → (x, a) = e := by
    intro x hx
    have hfilter : (x, a) ∈ s.held.filter fun e => decide (e.2 = a) := by
      simpa using hx
    rw [he] at hfilter
    exact List.mem_singleton.mp hfilter
  have heq := (hmem t ht).trans (hmem u hu).symm
  exact (Prod.mk.injEq .. ▸ heq).1

/-- What a thread relies on about an object that it has for itself. -/
theorem Inv.owned (h : s.Inv v chain) {u a : ℕ} (hown : (s.thread u).owns = some a) :
    s.foo a ≠ none ∧ (∀ i, a ∉ chain i) ∧ ∀ t, (t, a) ∈ s.held → t = u := by
  have hthread := h.thread u
  cases hpc : s.thread u <;> rw [hpc] at hthread hown
  case alloc fp =>
    obtain rfl := Option.some.inj hown
    obtain ⟨hmem, hone, hchain⟩ := hthread
    exact ⟨h.held _ hmem, hchain, fun t ht => eq_of_refs_one hone hmem ht⟩
  case releFree fp =>
    obtain rfl := Option.some.inj hown
    obtain ⟨hlive, hchain, hrefs⟩ := hthread
    refine ⟨hlive, hchain, fun t ht => ?_⟩
    cases v with
    | mutex2 => exact eq_of_refs_one hrefs.2 hrefs.1 ht
    | mutex3 =>
      have hpos := refs_pos ht
      simp only at hrefs
      omega
  all_goals cases hown

/-- What another thread relies on stays true if its references, its locks and its object
are left alone. -/
theorem ThreadOk.keep {chain' : ℕ → List ℕ} {u : ℕ} {pc : Pc} (h : s.ThreadOk v chain u pc)
    (hkeep : ∀ a, (u, a) ∈ s.held → (u, a) ∈ s'.held)
    (hlock : s.hashlock = some u → s'.hashlock = some u)
    (hown : ∀ a, pc.owns = some a →
      s'.foo a ≠ none ∧ (∀ i, a ∉ chain' i) ∧ s'.refs a = s.refs a)
    (hfind : ∀ a, pc = .findHold a → s.hashlock = some u → ∃ i, a ∈ chain' i) :
    s'.ThreadOk v chain' u pc := by
  cases pc with
  | idle => trivial
  | alloc a =>
    obtain ⟨-, hchain, hrefs⟩ := hown a rfl
    exact ⟨hkeep a h.1, hrefs.trans h.2.1, hchain⟩
  | allocLinked a => exact ⟨hlock h.1, hkeep a h.2⟩
  | allocInit a => exact hkeep a h
  | find id => trivial
  | findHold a => exact ⟨hlock h.1, hfind a rfl h.1⟩
  | hold a => exact hkeep a h
  | rele a => exact hkeep a h
  | releWindow a => exact ⟨h.1, hkeep a h.2⟩
  | releHash a => exact ⟨h.1, hlock h.2.1, hkeep a h.2.2⟩
  | releFree a =>
    obtain ⟨hlive, hchain, hrefs⟩ := hown a rfl
    refine ⟨hlive, hchain, ?_⟩
    have hlast := h.2.2
    cases v with
    | mutex2 => exact ⟨hkeep a hlast.1, hrefs.trans hlast.2⟩
    | mutex3 => exact hrefs.trans hlast

/-- A step that leaves the chains and the owned objects alone: a thread that owns nothing
before and after works on counts, locks and references. -/
theorem Inv.act (h : s.Inv v chain) {pc : Pc}
    (hfoo : ∀ a, (s'.foo a).map skeleton = (s.foo a).map skeleton)
    (hsame : s' = { s with
      foo := s'.foo, hashlock := s'.hashlock, thread := s'.thread, held := s'.held })
    (hthread : s'.thread = Function.update s.thread t pc)
    (howns : (s.thread t).owns = none) (howns' : pc.owns = none)
    (hcount : ∀ a o, s'.foo a = some o → o.f_count = toInt (s'.refs a))
    (hheld : ∀ e ∈ s'.held, s.foo e.2 ≠ none)
    (hkeep : ∀ u a, u ≠ t → (u, a) ∈ s.held → (u, a) ∈ s'.held)
    (hrefs : ∀ u a, (s.thread u).owns = some a → s'.refs a = s.refs a)
    (hlock : s'.hashlock = s.hashlock ∨ ∀ u, s.hashlock = some u → u = t)
    (hok : s'.ThreadOk v chain t pc) : s'.Inv v chain := by
  have hother : ∀ u, u ≠ t → s'.thread u = s.thread u := fun u hu => by
    rw [hthread, Function.update_of_ne hu]
  have hself : s'.thread t = pc := by rw [hthread, Function.update_self]
  have howns'' : ∀ u a, (s.thread u).owns = some a ↔ (s'.thread u).owns = some a := by
    intro u a
    by_cases hu : u = t
    · subst hu
      rw [howns, hself, howns']
    · rw [hother u hu]
  have hfree : ∀ u a, s'.thread u = .releFree a ↔ s.thread u = .releFree a := by
    intro u a
    by_cases hu : u = t
    · subst hu
      rw [hself]
      constructor
      · rintro rfl
        cases howns'
      · intro hpc
        rw [hpc] at howns
        cases howns
    · rw [hother u hu]
  have hback : ∀ a o', s'.foo a = some o' → ∃ o, s.foo a = some o ∧ o.f_id = o'.f_id ∧
      o.f_next = o'.f_next ∧ o.serial = o'.serial :=
    fun a o' ho' => exists_of_skeleton (fun a => (hfoo a).symm) ho'
  have hserials : s'.serials = s.serials := by rw [hsame]
  have hunlinked : s'.unlinked = s.unlinked := by rw [hsame]
  have hfreed : s'.freed = s.freed := by rw [hsame]
  refine ⟨h.shape.congr hfoo (by rw [hsame]) (by rw [hsame]), ?_, hcount, fun e he => ?_,
    fun u => ?_, fun a o' ho' => ?_, fun u w a hu hw => ?_, ?_⟩
  · rw [hsame]
    exact h.noFault
  · intro hnone
    exact hheld e he ((none_of_skeleton hfoo).mp hnone)
  · by_cases hu : u = t
    · subst hu
      rw [hself]
      exact hok
    · rw [hother u hu]
      refine (h.thread u).keep (fun a => hkeep u a hu) ?_ (fun a ha => ?_) (fun a ha hmine => ?_)
      · intro hmine
        rcases hlock with hlock | hlock
        · rw [hlock]
          exact hmine
        · exact absurd (hlock u hmine) hu
      · obtain ⟨hlive, hchain, -⟩ := h.owned ha
        exact ⟨fun hnone => hlive ((none_of_skeleton hfoo).mp hnone), hchain, hrefs u a ha⟩
      · have hthreadu := h.thread u
        rw [ha] at hthreadu
        exact hthreadu.2
  · obtain ⟨o, ho, hid, -⟩ := hback a o' ho'
    rw [← hid]
    rcases h.placed a o ho with hmem | ⟨u, hu⟩
    · exact Or.inl hmem
    · exact Or.inr ⟨u, (howns'' u a).mp hu⟩
  · exact h.single u w a ((hfree u a).mp hu) ((hfree w a).mp hw)
  · obtain ⟨hfresh, hdistinct, halive, hdying, hknown, haccounted, horder, hlast, honce,
      hfreedOnce⟩ := h.records
    refine ⟨fun a o' ho' => ?_, fun a b o' p' ho' hp' heq => ?_, fun a o' ho' => ?_,
      fun a o' ho' => ?_, ?_, fun n hn => ?_, ?_, ?_, ?_, ?_⟩
    · obtain ⟨o, ho, -, -, hs⟩ := hback a o' ho'
      rw [← hs, hserials]
      exact hfresh a o ho
    · obtain ⟨o, ho, -, -, hs⟩ := hback a o' ho'
      obtain ⟨p, hp, -, -, hs'⟩ := hback b p' hp'
      exact hdistinct a b o p ho hp (hs.trans (heq.trans hs'.symm))
    · obtain ⟨o, ho, -, -, hs⟩ := hback a o' ho'
      rw [← hs, hfreed]
      exact halive a o ho
    · obtain ⟨o, ho, -, -, hs⟩ := hback a o' ho'
      rw [← hs, hunlinked, hdying a o ho]
      simp only [hfree]
    · rw [hunlinked, hserials]
      exact hknown
    · rw [hserials] at hn
      rw [hfreed]
      refine (haccounted n hn).imp_right fun ⟨a, o, ho, hs⟩ => ?_
      obtain ⟨o', ho', -, -, hs'⟩ := exists_of_skeleton hfoo ho
      exact ⟨a, o', ho', hs'.trans hs⟩
    · rw [hunlinked, hfreed]
      exact horder
    · rw [hunlinked]
      exact hlast
    · rw [hunlinked]
      exact honce
    · rw [hfreed]
      exact hfreedOnce

/-- A thread that owns nothing and has a reference to an object shares it with its chain. -/
theorem Inv.not_owned_of_held (h : s.Inv v chain) (howns : (s.thread t).owns = none)
    (hmem : (t, fp) ∈ s.held) (u : ℕ) : (s.thread u).owns ≠ some fp := by
  intro hu
  obtain rfl := (h.owned hu).2.2 t hmem
  rw [howns] at hu
  cases hu

theorem Inv.not_owned_of_chain (h : s.Inv v chain) {i : ℕ} (hmem : fp ∈ chain i) (u : ℕ) :
    (s.thread u).owns ≠ some fp := fun hu => (h.owned hu).2.1 i hmem

/-- A thread goes on without touching an object. -/
theorem Inv.move (h : s.Inv v chain) {pc : Pc} {lock : Option ℕ}
    (howns : (s.thread t).owns = none) (howns' : pc.owns = none)
    (hlock : lock = s.hashlock ∨ ∀ u, s.hashlock = some u → u = t)
    (hok : ({ s.go t pc with hashlock := lock } : State).ThreadOk v chain t pc) :
    ({ s.go t pc with hashlock := lock } : State).Inv v chain :=
  h.act (fun _ => rfl) rfl rfl howns howns' h.count h.held (fun _ _ _ hmem => hmem)
    (fun _ _ _ => rfl) hlock hok

theorem setFoo_skeleton (ho : s.foo fp = some o) {o' : Foo} (hs : skeleton o' = skeleton o) (a : ℕ) :
    ((s.setFoo fp o').foo a).map skeleton = (s.foo a).map skeleton := by
  by_cases ha : a = fp
  · subst ha
    simp [setFoo, ho, hs]
  · simp [setFoo, ha]

/-- A thread takes or gives up the lock of an object. -/
theorem Inv.lockFoo (h : s.Inv v chain) {pc : Pc} {lock flock : Option ℕ} (ho : s.foo fp = some o)
    (howns : (s.thread t).owns = none) (howns' : pc.owns = none)
    (hlock : lock = s.hashlock ∨ ∀ u, s.hashlock = some u → u = t)
    (hok : ({ (s.setFoo fp { o with f_lock := flock }).go t pc with hashlock := lock } :
      State).ThreadOk v chain t pc) :
    ({ (s.setFoo fp { o with f_lock := flock }).go t pc with hashlock := lock } : State).Inv v
      chain := by
  refine h.act (setFoo_skeleton ho rfl) rfl rfl howns howns' (fun a p hp => ?_) h.held
    (fun _ _ _ hmem => hmem) (fun _ _ _ => rfl) hlock hok
  change Function.update s.foo fp _ a = some p at hp
  by_cases ha : a = fp
  · subst ha
    rw [Function.update_self] at hp
    obtain rfl := Option.some.inj hp
    exact h.count a o ho
  · rw [Function.update_of_ne ha] at hp
    exact h.count a p hp

theorem addRef_refs (a : ℕ) :
    (s.addRef t fp o).refs a = s.refs a + if fp = a then 1 else 0 := by
  simp [refs, State.addRef, List.countP_cons]

theorem dropRef_refs (hmem : (t, fp) ∈ s.held) (a : ℕ) :
    (s.dropRef t fp o).refs a = s.refs a - if fp = a then 1 else 0 := by
  simp [refs, State.dropRef, List.countP_erase, hmem]

/-- A thread gets a reference to an object that no thread has for itself. -/
theorem Inv.addRef (h : s.Inv v chain) {lock : Option ℕ} (ho : s.foo fp = some o)
    (howns : (s.thread t).owns = none) (hnot : ∀ u, (s.thread u).owns ≠ some fp)
    (hlock : lock = s.hashlock ∨ ∀ u, s.hashlock = some u → u = t) :
    ({ (s.addRef t fp o).go t .idle with hashlock := lock } : State).Inv v chain := by
  have hrefs : ∀ a, ({ (s.addRef t fp o).go t .idle with hashlock := lock } : State).refs a =
      s.refs a + if fp = a then 1 else 0 := addRef_refs (o := o)
  refine h.act (setFoo_skeleton ho rfl) rfl rfl howns rfl (fun a p hp => ?_) (fun e he => ?_)
    (fun _ _ _ hmem => List.mem_cons_of_mem _ hmem) (fun u a hu => ?_) hlock trivial
  · rw [hrefs]
    change Function.update s.foo fp _ a = some p at hp
    by_cases ha : a = fp
    · subst ha
      rw [Function.update_self] at hp
      obtain rfl := Option.some.inj hp
      rw [h.count a o ho, if_pos rfl, toInt_add, Int.natCast_succ]
    · rw [Function.update_of_ne ha] at hp
      simp [h.count a p hp, Ne.symm ha]
  · rcases List.mem_cons.mp he with rfl | he
    · simp [ho]
    · exact h.held e he
  · rw [hrefs, if_neg]
    · rfl
    · rintro rfl
      exact hnot u hu

/-- A thread gives up a reference that it need not have for another thread. -/
theorem Inv.dropRef (h : s.Inv v chain) {lock : Option ℕ} (ho : s.foo fp = some o)
    (howns : (s.thread t).owns = none) (hmem : (t, fp) ∈ s.held)
    (hlock : lock = s.hashlock ∨ ∀ u, s.hashlock = some u → u = t) :
    ({ (s.dropRef t fp o).go t .idle with hashlock := lock } : State).Inv v chain := by
  have hpos := refs_pos hmem
  have hrefs : ∀ a, ({ (s.dropRef t fp o).go t .idle with hashlock := lock } : State).refs a =
      s.refs a - if fp = a then 1 else 0 := dropRef_refs (o := o) hmem
  refine h.act (setFoo_skeleton ho rfl) rfl rfl howns rfl (fun a p hp => ?_) (fun e he => ?_)
    (fun u a hu hmem' => ?_) (fun u a hu => ?_) hlock trivial
  · rw [hrefs]
    change Function.update s.foo fp _ a = some p at hp
    by_cases ha : a = fp
    · subst ha
      rw [Function.update_self] at hp
      obtain rfl := Option.some.inj hp
      rw [h.count a o ho, if_pos rfl, toInt_sub, Int.ofNat_sub hpos, Int.natCast_one]
    · rw [Function.update_of_ne ha] at hp
      simp [h.count a p hp, Ne.symm ha]
  · exact h.held e (List.mem_of_mem_erase he)
  · refine (List.mem_erase_of_ne ?_).mpr hmem'
    simp [hu]
  · rw [hrefs, if_neg]
    · rfl
    · rintro rfl
      exact h.not_owned_of_held howns hmem u hu

end State

end Apue.FooTable
