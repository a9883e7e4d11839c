import Apue.FooSteps

/-!
References are counted safely, in all runs of both programs in which an int can count the
references of every object, and in no others: no thread accesses memory that is not allocated,
and an object is taken out of its chain and freed once, when its last reference is released.
-/
namespace Apue.FooTable

open Programs Pointers

namespace State

variable {v : Version} {s s' : State} {chain : ℕ → List ℕ} {t fp : ℕ} {o : Foo}

/-- The objects in the chains have references. -/
def Chained (s : State) (chain : ℕ → List ℕ) : Prop := ∀ i, ∀ a ∈ chain i, 0 < s.refs a

theorem Chained.mono (h : s.Chained chain) (hrefs : ∀ a, s.refs a ≤ s'.refs a) : s'.Chained chain :=
  fun i a ha => Nat.lt_of_lt_of_le (h i a ha) (hrefs a)

theorem Chained.addRef (h : s.Chained chain) (o : Foo) : (s.addRef t fp o).Chained chain :=
  h.mono fun a => by
    rw [addRef_refs]
    exact Nat.le_add_right _ _

theorem Chained.dropRef (h : s.Chained chain) (o : Foo) (hmem : (t, fp) ∈ s.held)
    (hrefs : s.refs fp ≠ 1) : (s.dropRef t fp o).Chained chain := by
  intro i a ha
  have hpos := h i a ha
  rw [dropRef_refs hmem]
  split
  case isTrue heq =>
    subst heq
    omega
  case isFalse => omega

theorem unlink_held {n : ℕ} : (s.unlink t fp o n).held = s.held := by
  simp only [State.unlink, State.remove]
  split
  · rfl
  case h_2 s₁ hs₁ =>
    split at hs₁
    · obtain rfl := Option.some.inj hs₁
      rfl
    · split at hs₁
      · cases hs₁
      · split at hs₁
        · cases hs₁
        · obtain rfl := Option.some.inj hs₁
          rfl

/-- The objects that stay in the chains when one is taken out. -/
theorem Chained.unlink (h : ∀ i, ∀ a ∈ chain i, a ≠ fp → 0 < s.refs a)
    (hnodup : ∀ i, (chain i).Nodup) (hother : ∀ i, i ≠ hash o.f_id → fp ∉ chain i) {n : ℕ} :
    (s.unlink t fp o n).Chained
      (Function.update chain (hash o.f_id) ((chain (hash o.f_id)).erase fp)) := by
  intro i a ha
  have hrefs : (s.unlink t fp o n).refs a = s.refs a := by rw [refs, unlink_held, refs]
  rw [hrefs]
  by_cases hi : i = hash o.f_id
  · subst hi
    rw [Function.update_self] at ha
    obtain ⟨hafp, ha⟩ := (hnodup _).mem_erase_iff.mp ha
    exact h _ a ha hafp
  · rw [Function.update_of_ne hi] at ha
    refine h i a ha ?_
    rintro rfl
    exact hother i hi ha

theorem Inv.hash_of_mem (h : s.Inv v chain) (ho : s.foo fp = some o) {i : ℕ}
    (hi : i ≠ hash o.f_id) : fp ∉ chain i := by
  intro hmem
  obtain ⟨p, hp, hpi⟩ := h.shape.hashed i fp hmem
  obtain rfl := Option.some.inj (ho.symm.trans hp)
  exact hi hpi.symm

theorem Inv.begin {c : Call} (h : s.Inv v chain) (hc : s.Chained chain)
    (hidle : s.thread t = .idle) (hs : s.begin t c = some s') :
    s'.Inv v chain ∧ s'.Chained chain := by
  have howns : (s.thread t).owns = none := by
    rw [hidle]
    rfl
  cases c with
  | alloc fp id =>
    obtain ⟨⟨hfp, hnone⟩, hs⟩ := Option.ite_none_right_eq_some.mp hs
    obtain rfl := Option.some.inj hs
    refine ⟨h.alloc hidle hfp hnone, hc.mono fun a => ?_⟩
    simp only [refs, List.countP_cons]
    exact Nat.le_add_right _ _
  | find id =>
    obtain rfl := Option.some.inj hs
    exact ⟨h.move howns rfl (Or.inl rfl) trivial, hc⟩
  | hold fp =>
    obtain ⟨hmem, hs⟩ := Option.ite_none_right_eq_some.mp hs
    obtain rfl := Option.some.inj hs
    exact ⟨h.move howns rfl (Or.inl rfl) hmem, hc⟩
  | rele fp =>
    obtain ⟨hmem, hs⟩ := Option.ite_none_right_eq_some.mp hs
    obtain rfl := Option.some.inj hs
    exact ⟨h.move howns rfl (Or.inl rfl) hmem, hc⟩
  | give u fp =>
    obtain ⟨hmem, hs⟩ := Option.ite_none_right_eq_some.mp hs
    obtain rfl := Option.some.inj hs
    exact ⟨h.give hidle hmem, hc.mono fun a => Nat.le_of_eq (give_refs hmem a).symm⟩

theorem Inv.exists_of_held (h : s.Inv v chain) (hmem : (t, fp) ∈ s.held) : ∃ o, s.foo fp = some o :=
  Option.ne_none_iff_exists'.mp (h.held _ hmem)

/-- Fewer references of each object are held than an int can count. -/
def Few (s : State) : Prop := ∀ a, s.refs a < 2 ^ 31

theorem Inv.count_of_few (h : s.Inv v chain) (hfew : s.Few) (ho : s.foo fp = some o) :
    o.f_count = s.refs fp := by
  rw [h.count fp o ho]
  exact toInt_eq_self_iff.mpr (hfew fp)

theorem Inv.count_eq_one (h : s.Inv v chain) (hfew : s.Few) (ho : s.foo fp = some o) :
    o.f_count = 1 ↔ s.refs fp = 1 := by
  have hcount := h.count_of_few hfew ho
  omega

/-- The count that foo_rele of mutex3.c counts down to 0. -/
theorem Inv.count_down (h : s.Inv v chain) (hfew : s.Few) (ho : s.foo fp = some o) :
    toInt (o.f_count - 1) = 0 ↔ s.refs fp = 1 := by
  have hlt := hfew fp
  rw [h.count_of_few hfew ho, toInt, Int.bmod_eq_of_le (by omega) (by omega)]
  omega

/-- The search of foo_find ends, at the end of the chain or at an object in it. -/
theorem Inv.search (h : s.Inv v chain) (id : ℤ) :
    ∃ r, s.search id (s.live.length + 1) (s.fh (hash id)) = some r ∧
      (r = 0 ∨ r ∈ chain (hash id) ∧ ∃ o, s.foo r = some o ∧ o.f_id = id) := by
  refine search_path h.shape.null (h.shape.path _) (fun a ha => ?_)
    (Nat.lt_succ_of_le (h.shape.length_le _))
  obtain ⟨o, ho, -⟩ := h.shape.hashed _ a ha
  exact ⟨o, ho⟩

theorem Inv.found (h : s.Inv v chain) (hc : s.Chained chain) {r i : ℕ}
    (howns : (s.thread t).owns = none) (hfree : s.hashlock = none) (hr : r = 0 ∨ r ∈ chain i) :
    (s.found v t r).Inv v chain ∧ (s.found v t r).Chained chain := by
  have hlock : ∀ u, s.hashlock = some u → u = t := fun u hu => by
    rw [hfree] at hu
    cases hu
  by_cases h0 : r = 0
  · simp only [State.found, if_pos h0]
    exact ⟨h.move howns rfl (Or.inl rfl) trivial, hc⟩
  · have hmem := hr.resolve_left h0
    simp only [State.found, if_neg h0]
    cases v with
    | mutex2 => exact ⟨h.move howns rfl (Or.inr hlock) ⟨rfl, i, hmem⟩, hc⟩
    | mutex3 =>
      obtain ⟨o, ho, -⟩ := h.shape.hashed i r hmem
      simp only [ho]
      exact ⟨h.addRef ho howns (h.not_owned_of_chain hmem) (Or.inl rfl), hc.addRef o⟩

/-- The steps of foo_rele up to the one that takes the object out of its chain. -/
theorem Inv.rele (h : s.Inv v chain) (hc : s.Chained chain) (hfew : s.Few)
    (hpc : s.thread t = .rele fp) (hs : s.next v t = some s') :
    ∃ chain', s'.Inv v chain' ∧ s'.Chained chain' := by
  have howns : (s.thread t).owns = none := by
    rw [hpc]
    rfl
  have hmem : (t, fp) ∈ s.held := by
    have hthread := h.thread t
    rwa [hpc] at hthread
  obtain ⟨o, ho⟩ := h.exists_of_held hmem
  have hrefs := h.count_eq_one hfew ho
  cases v with
  | mutex2 =>
    simp only [State.next, hpc, ho] at hs
    obtain ⟨-, hs⟩ := Option.ite_none_right_eq_some.mp hs
    split at hs
    · obtain rfl := Option.some.inj hs
      exact ⟨chain, h.move howns rfl (Or.inl rfl) ⟨rfl, hmem⟩, hc⟩
    case isFalse hmore =>
      obtain rfl := Option.some.inj hs
      exact ⟨chain, h.dropRef ho howns hmem (Or.inl rfl), hc.dropRef o hmem (hrefs.not.mp hmore)⟩
  | mutex3 =>
    simp only [State.next, hpc, ho] at hs
    obtain ⟨hfree, hs⟩ := Option.ite_none_right_eq_some.mp hs
    have hdropped : ((s.dropRef t fp o).go t .idle).Inv .mutex3 chain :=
      h.dropRef ho howns hmem (Or.inl rfl)
    split at hs
    case isTrue hlast =>
      have hone : s.refs fp = 1 := (h.count_down hfew ho).mp hlast
      have hidle : ((s.dropRef t fp o).go t .idle).thread t = .idle := Function.update_self ..
      have hobject : ((s.dropRef t fp o).go t .idle).foo fp =
          some { o with f_count := toInt (o.f_count - 1) } := Function.update_self ..
      have hzero : ((s.dropRef t fp o).go t .idle).refs fp = 0 := by
        rw [refs] at hone
        simp [refs, State.dropRef, State.go, List.countP_erase, hmem, hone]
      have hunlink : ((s.dropRef t fp o).go t .idle).unlink t fp o 1 =
          ((s.dropRef t fp o).go t .idle).unlink t fp
            { o with f_count := toInt (o.f_count - 1) } 1 := rfl
      rw [hone, hunlink] at hs
      obtain rfl := Option.some.inj hs
      refine ⟨_, hdropped.unlink (by rw [hidle]; rfl) hobject (fun u hu => ?_)
        (fun u hu => ?_) hzero, Chained.unlink (fun i a ha hafp => ?_) h.shape.nodup
        fun i hi => h.hash_of_mem ho hi⟩
      · have hut : u ≠ t := by
          rintro rfl
          rw [hidle] at hu
          cases hu
        change (Function.update s.thread t .idle u).owns = some fp at hu
        rw [Function.update_of_ne hut] at hu
        exact h.not_owned_of_held howns hmem u hu
      · cases hfree.symm.trans hu
      · have hkept : ((s.dropRef t fp o).go t .idle).refs a = s.refs a - if fp = a then 1 else 0 :=
          dropRef_refs (o := o) hmem a
        rw [hkept, if_neg (Ne.symm hafp)]
        exact hc i a ha
    case isFalse hmore =>
      obtain rfl := Option.some.inj hs
      exact ⟨chain, hdropped, hc.dropRef o hmem fun hone => hmore ((h.count_down hfew ho).mpr hone)⟩

/-- Every step of a thread keeps the invariant. -/
theorem Inv.next (h : s.Inv v chain) (hc : s.Chained chain) (hfew : s.Few)
    (hs : s.next v t = some s') : ∃ chain', s'.Inv v chain' ∧ s'.Chained chain' := by
  have hthread := h.thread t
  have hfreeLock : s.hashlock = none → ∀ u, s.hashlock = some u → u = t := fun hfree u hu => by
    rw [hfree] at hu
    cases hu
  have hmyLock : s.hashlock = some t → ∀ u, s.hashlock = some u → u = t := fun hmine u hu =>
    Option.some.inj (hu.symm.trans hmine)
  cases hpc : s.thread t with
  | idle =>
    simp only [State.next, hpc] at hs
    cases hs
  | alloc fp =>
    rw [hpc] at hthread
    obtain ⟨o, ho⟩ := h.exists_of_held hthread.1
    simp only [State.next, hpc, ho] at hs
    obtain ⟨hfree, hs⟩ := Option.ite_none_right_eq_some.mp hs
    obtain rfl := Option.some.inj hs
    refine ⟨_, h.link hpc hfree ho, fun i a ha => ?_⟩
    by_cases hi : i = hash o.f_id
    · subst hi
      rw [Function.update_self] at ha
      rcases List.mem_cons.mp ha with rfl | ha
      · exact refs_pos hthread.1
      · exact hc _ a ha
    · rw [Function.update_of_ne hi] at ha
      exact hc i a ha
  | allocLinked fp =>
    rw [hpc] at hthread
    obtain ⟨o, ho⟩ := h.exists_of_held hthread.2
    simp only [State.next, hpc, ho] at hs
    obtain ⟨-, hs⟩ := Option.ite_none_right_eq_some.mp hs
    obtain rfl := Option.some.inj hs
    exact ⟨chain, h.lockFoo ho (by rw [hpc]; rfl) rfl (Or.inr (hmyLock hthread.1)) hthread.2, hc⟩
  | allocInit fp =>
    rw [hpc] at hthread
    obtain ⟨o, ho⟩ := h.exists_of_held hthread
    simp only [State.next, hpc, ho] at hs
    obtain rfl := Option.some.inj hs
    exact ⟨chain, h.lockFoo ho (by rw [hpc]; rfl) rfl (Or.inl rfl) trivial, hc⟩
  | find id =>
    obtain ⟨r, hr, hend⟩ := h.search id
    simp only [State.next, hpc, hr] at hs
    obtain ⟨hfree, hs⟩ := Option.ite_none_right_eq_some.mp hs
    obtain rfl := Option.some.inj hs
    exact ⟨chain, h.found hc (by rw [hpc]; rfl) hfree (hend.imp_right And.left)⟩
  | findHold fp =>
    rw [hpc] at hthread
    obtain ⟨hmine, i, hmem⟩ := hthread
    obtain ⟨o, ho, -⟩ := h.shape.hashed i fp hmem
    simp only [State.next, hpc, ho] at hs
    obtain ⟨-, hs⟩ := Option.ite_none_right_eq_some.mp hs
    obtain rfl := Option.some.inj hs
    exact ⟨chain, h.addRef ho (by rw [hpc]; rfl) (h.not_owned_of_chain hmem)
      (Or.inr (hmyLock hmine)), hc.addRef o⟩
  | hold fp =>
    rw [hpc] at hthread
    obtain ⟨o, ho⟩ := h.exists_of_held hthread
    have howns : (s.thread t).owns = none := by
      rw [hpc]
      rfl
    simp only [State.next, hpc, ho] at hs
    obtain ⟨-, hs⟩ := Option.ite_none_right_eq_some.mp hs
    obtain rfl := Option.some.inj hs
    exact ⟨chain, h.addRef ho howns (h.not_owned_of_held howns hthread) (Or.inl rfl), hc.addRef o⟩
  | rele fp => exact h.rele hc hfew hpc hs
  | releWindow fp =>
    rw [hpc] at hthread
    simp only [State.next, hpc] at hs
    obtain ⟨hfree, hs⟩ := Option.ite_none_right_eq_some.mp hs
    obtain rfl := Option.some.inj hs
    exact ⟨chain, h.move (by rw [hpc]; rfl) rfl (Or.inr (hfreeLock hfree))
      ⟨hthread.1, rfl, hthread.2⟩, hc⟩
  | releHash fp =>
    rw [hpc] at hthread
    obtain ⟨rfl, hmine, hmem⟩ := hthread
    have howns : (s.thread t).owns = none := by
      rw [hpc]
      rfl
    obtain ⟨o, ho⟩ := h.exists_of_held hmem
    simp only [State.next, hpc, ho] at hs
    have hrefs := h.count_eq_one hfew ho
    obtain ⟨-, hs⟩ := Option.ite_none_right_eq_some.mp hs
    split at hs
    case isTrue hmore =>
      obtain rfl := Option.some.inj hs
      exact ⟨chain, h.dropRef ho howns hmem (Or.inr (hmyLock hmine)),
        hc.dropRef o hmem (hrefs.not.mp hmore)⟩
    case isFalse hlast =>
      have hone : s.refs fp = 1 := hrefs.mp (not_not.mp hlast)
      rw [hone] at hs
      obtain rfl := Option.some.inj hs
      exact ⟨_, h.unlink howns ho (h.not_owned_of_held howns hmem) (hmyLock hmine) ⟨hmem, hone⟩,
        Chained.unlink (fun i a ha _ => hc i a ha) h.shape.nodup fun i hi => h.hash_of_mem ho hi⟩
  | releFree fp =>
    rw [hpc] at hthread
    obtain ⟨o, ho⟩ := Option.ne_none_iff_exists'.mp hthread.1
    simp only [State.next, hpc, ho] at hs
    obtain rfl := Option.some.inj hs
    refine ⟨chain, Inv.free rfl h hpc ho, fun i a ha => ?_⟩
    have hafp : a ≠ fp := by
      rintro rfl
      exact hthread.2.1 i ha
    have hkept := hc i a ha
    cases v with
    | mutex2 => simpa [refs, List.countP_erase, Ne.symm hafp] using hkept
    | mutex3 => exact hkept

theorem Inv.step {e : Event} (h : s.Inv v chain) (hc : s.Chained chain) (hfew : s.Few)
    (hs : s.step v e = some s') : ∃ chain', s'.Inv v chain' ∧ s'.Chained chain' := by
  simp only [State.step, h.noFault] at hs
  cases e with
  | call t c =>
    obtain ⟨hidle, hs⟩ := Option.ite_none_right_eq_some.mp hs
    exact ⟨chain, h.begin hc hidle hs⟩
  | go t => exact h.next hc hfew hs

/-- References are counted safely: the count of an object is the number of references to
it, and the objects of the references are allocated, also of those that foo_find is about to
hand out. An object that is allocated has a reference or is being freed by the thread that
released the last one, which no other thread can know. Each object was taken out of its
chain at most once, when there was one reference, and freed at most once, after that; no
object gets lost without being freed. -/
structure Safe (s : State) : Prop where
  noFault : s.fault = false
  count : ∀ a o, s.foo a = some o → o.f_count = s.refs a
  held : ∀ t a, (t, a) ∈ s.held → s.foo a ≠ none
  handed : ∀ t a, s.thread t = .findHold a → s.foo a ≠ none
  referenced : ∀ a o, s.foo a = some o → 0 < s.refs a ∨ ∃ t, s.thread t = .releFree a
  alone : ∀ t a, s.thread t = .releFree a → s.foo a ≠ none ∧ s.refs a ≤ 1 ∧
    ∀ u, u ≠ t → (u, a) ∉ s.held ∧ s.thread u ≠ .findHold a ∧ s.thread u ≠ .releFree a
  unlinkedLast : ∀ e ∈ s.unlinked, e.2 = 1
  unlinkedOnce : (s.unlinked.map Prod.fst).Nodup
  freedOnce : s.freed.Nodup
  freedAfter : ∀ n ∈ s.freed, n ∈ s.unlinked.map Prod.fst
  freedGone : ∀ a o, s.foo a = some o → o.serial ∉ s.freed
  accounted : ∀ n < s.serials, n ∈ s.freed ∨ ∃ a o, s.foo a = some o ∧ o.serial = n

theorem Inv.safe (h : s.Inv v chain) (hc : s.Chained chain) (hfew : s.Few) : s.Safe where
  noFault := h.noFault
  count _ _ ho := h.count_of_few hfew ho
  held t a hmem := h.held (t, a) hmem
  handed t a hpc := by
    have hthread := h.thread t
    rw [hpc] at hthread
    obtain ⟨-, i, hmem⟩ := hthread
    obtain ⟨o, ho, -⟩ := h.shape.hashed i a hmem
    simp [ho]
  referenced a o ho := by
    rcases h.placed a o ho with hmem | ⟨t, hown⟩
    · exact Or.inl (hc _ a hmem)
    · have hthread := h.thread t
      cases hpc : s.thread t <;> rw [hpc] at hown hthread
      case alloc fp =>
        obtain rfl := Option.some.inj hown
        exact Or.inl (refs_pos hthread.1)
      case releFree fp =>
        obtain rfl := Option.some.inj hown
        exact Or.inr ⟨t, hpc⟩
      all_goals cases hown
  alone t a hpc := by
    have hthread := h.thread t
    rw [hpc] at hthread
    obtain ⟨hlive, hchain, hrefs⟩ := hthread
    have hle : s.refs a ≤ 1 := by
      cases v with
      | mutex2 => exact Nat.le_of_eq hrefs.2
      | mutex3 => exact Nat.le_succ_of_le (Nat.le_of_eq hrefs)
    refine ⟨hlive, hle, fun u hu => ⟨fun hmem => ?_, fun hfind => ?_, fun hfree => ?_⟩⟩
    · exact hu ((h.owned (by rw [hpc]; rfl)).2.2 u hmem)
    · have hthread := h.thread u
      rw [hfind] at hthread
      obtain ⟨-, i, hmem⟩ := hthread
      exact hchain i hmem
    · exact hu (h.single u t a hfree hpc)
  unlinkedLast := h.records.last
  unlinkedOnce := h.records.unlinkedOnce
  freedOnce := h.records.freedOnce
  freedAfter := h.records.order
  freedGone := h.records.alive
  accounted := h.records.accounted

end State

theorem inv_of_reaches {v : Version} {s : State}
    (h : Reaches (State.step v) (fun s _ => s.Few) .initial s) :
    ∃ chain, s.Inv v chain ∧ s.Chained chain := by
  induction h with
  | start => exact ⟨_, State.Inv.initial v, nofun⟩
  | step _ hfew hs ih =>
    obtain ⟨chain, hinv, hc⟩ := ih
    exact hinv.step hc hfew hs

/-- An int cannot be the number of the references when there are too many. -/
theorem safe_iff_few {v : Version} {s : State}
    (h : Reaches (State.step v) (fun s _ => s.Few) .initial s) : s.Safe ↔ s.Few := by
  obtain ⟨chain, hinv, hc⟩ := inv_of_reaches h
  refine ⟨fun hsafe a => ?_, hinv.safe hc⟩
  cases ho : s.foo a with
  | none => rw [hinv.refs_of_none ho]; decide
  | some o => exact toInt_eq_self_iff.mp ((hinv.count a o ho).symm.trans (hsafe.count a o ho))

/-- In a run of one of the programs, the references are counted safely in every state exactly
if fewer references of each object are held in every state than an int can count. -/
theorem references_counted_safely_iff (v : Version) (events : List Event) :
    (∀ l, l <+: events → ∀ s, steps (State.step v) l .initial = some s → s.Safe) ↔
      ∀ l, l <+: events → ∀ s, steps (State.step v) l .initial = some s → s.Few := by
  constructor
  · intro h l
    induction hn : l.length using Nat.strongRecOn generalizing l with
    | _ n ih =>
      subst hn
      intro hl s hs
      refine (safe_iff_few (.of_states (fun l' hl' hne s' hs' => ?_) hs)).mp (h l hl s hs)
      have hlt : l'.length < l.length :=
        Nat.lt_of_le_of_ne hl'.length_le fun heq => hne (hl'.eq_of_length heq)
      exact ih _ hlt l' rfl (hl'.trans hl) s' hs'
  · intro h l hl s hs
    exact (safe_iff_few (.of_states (fun l' hl' _ => h l' (hl'.trans hl)) hs)).mpr (h l hl s hs)

namespace State

/-- A thread holds all references to the one object, and no call is under way. -/
structure Alone (s : State) (n : ℕ) : Prop where
  noFault : s.fault = false
  object : s.foo 1 = some ⟨toInt n, none, 5, 0, 0⟩
  chain : s.fh (hash 5) = 1
  free : s.hashlock = none
  idle : s.thread 0 = .idle
  held : s.held = List.replicate n (0, 1)
  kept : s.freed = []

theorem Alone.alloc (v : Version) : ∃ s, steps (State.step v)
    [.call 0 (.alloc 1 5), .go 0, .go 0, .go 0] .initial = some s ∧ s.Alone 1 := by
  cases v <;> exact ⟨_, rfl, rfl, rfl, rfl, rfl, rfl, rfl, rfl⟩

theorem Alone.hold {v : Version} {s : State} {n : ℕ} (h : s.Alone (n + 1)) : ∃ s',
    steps (State.step v) [.call 0 (.hold 1), .go 0] s = some s' ∧ s'.Alone (n + 2) := by
  obtain ⟨hfault, ho, hchain, hfree, hidle, hheld, hkept⟩ := h
  have hcall : s.step v (.call 0 (.hold 1)) = some (s.go 0 (.hold 1)) := by
    simp [State.step, hfault, hidle, State.begin, hheld, List.mem_replicate]
  have hgo : (s.go 0 (.hold 1)).step v (.go 0) =
      some (((s.go 0 (.hold 1)).addRef 0 1 ⟨toInt (n + 1 : ℕ), none, 5, 0, 0⟩).go 0 .idle) := by
    cases v <;> simp [State.step, State.next, State.go, hfault, ho, hfree]
  refine ⟨_, (steps_cons hcall _).trans (steps_cons hgo _), hfault, ?_, hchain, hfree,
    ?_, congrArg (List.cons (0, 1)) hheld, hkept⟩
  · have hsucc : toInt (toInt (n + 1 : ℕ) + 1) = toInt (n + 2 : ℕ) := toInt_add ..
    simp only [State.go, State.addRef, State.setFoo, Function.update_self, hsucc]
  · simp [State.go]

/-- The release by a thread that takes its reference for the last one. -/
theorem Alone.rele {v : Version} {s : State} {n : ℕ} (h : s.Alone (n + 1))
    (hwrap : toInt (n + 1 : ℕ) = 1) : ∃ events s', steps (State.step v) events s = some s' ∧
      s'.freed = [0] ∧ s'.foo 1 = none ∧ s'.held = List.replicate n (0, 1) := by
  obtain ⟨hfault, ho, hchain, hfree, hidle, hheld, hkept⟩ := h
  rw [hwrap] at ho
  have hmem : (0, 1) ∈ List.replicate (n + 1) ((0, 1) : ℕ × ℕ) := by
    simp [List.mem_replicate]
  cases v with
  | mutex2 =>
    refine ⟨[.call 0 (.rele 1), .go 0, .go 0, .go 0, .go 0], ?_⟩
    simp [steps, State.step, State.begin, State.next, State.go, State.unlink, State.remove,
      hfault, hidle, hheld, hmem, ho, hfree, hchain, hkept]
  | mutex3 =>
    refine ⟨[.call 0 (.rele 1), .go 0, .go 0], ?_⟩
    simp [steps, State.step, State.begin, State.next, State.go, State.unlink, State.remove,
      State.dropRef, State.setFoo, toInt, hfault, hidle, hheld, hmem, ho, hfree, hchain, hkept]

theorem Alone.exists_run (v : Version) (n : ℕ) : ∃ s, Reachable v s ∧ s.Alone (n + 1) := by
  induction n with
  | zero =>
    obtain ⟨s, hs, h⟩ := Alone.alloc v
    exact ⟨s, ⟨_, hs⟩, h⟩
  | succ n ih =>
    obtain ⟨s, ⟨events, hs⟩, h⟩ := ih
    obtain ⟨s', hs', h'⟩ := h.hold (v := v)
    exact ⟨s', ⟨events ++ [.call 0 (.hold 1), .go 0], (steps_append hs _).trans hs'⟩, h'⟩

/-- With one reference more than an int has values, the release of one frees the object. -/
theorem exists_freed (v : Version) : ∃ s, Reachable v s ∧ s.freed = [0] ∧ s.refs 1 = 2 ^ 32 ∧
    ¬ s.Safe := by
  obtain ⟨s, ⟨events, hs⟩, h⟩ := Alone.exists_run v (2 ^ 32)
  obtain ⟨events', s', hs', hfreed, hgone, hheld⟩ := h.rele (v := v) (by decide)
  refine ⟨s', ⟨events ++ events', (steps_append hs _).trans hs'⟩, hfreed, ?_, fun hsafe => ?_⟩
  · rw [refs, hheld, List.countP_replicate, if_pos (by decide)]
  · refine hsafe.held 0 1 ?_ hgone
    rw [hheld]
    exact List.mem_replicate.mpr ⟨by decide, rfl⟩

end State

/-- In both programs a thread that calls foo_hold again and again and then foo_rele once frees
an object to which it holds 2^32 references. -/
theorem freed_with_references :
    (∃ s, Reachable .mutex2 s ∧ s.freed = [0] ∧ s.refs 1 = 2 ^ 32 ∧ ¬ s.Safe) ∧
    ∃ s, Reachable .mutex3 s ∧ s.freed = [0] ∧ s.refs 1 = 2 ^ 32 ∧ ¬ s.Safe :=
  ⟨State.exists_freed .mutex2, State.exists_freed .mutex3⟩

end Apue.FooTable
