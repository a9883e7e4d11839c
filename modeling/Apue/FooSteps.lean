import Apue.FooInvariant

/-!
The steps that change the chains: an object is allocated, put into its chain, taken out of
it and freed. Every step keeps the invariant, and so references are counted safely in all
runs.
-/
namespace Apue.FooTable

open Programs Pointers

namespace State

variable {v : Version} {s s' : State} {chain : ℕ → List ℕ} {t fp : ℕ} {o : Foo} {id : ℤ}

theorem Inv.not_mem_chain (h : s.Inv v chain) (hnone : s.foo fp = none) (i : ℕ) : fp ∉ chain i := by
  intro hmem
  obtain ⟨o, ho, -⟩ := h.shape.hashed i fp hmem
  rw [hnone] at ho
  cases ho

theorem Inv.refs_of_none (h : s.Inv v chain) (hnone : s.foo fp = none) : s.refs fp = 0 := by
  refine List.countP_eq_zero.mpr fun e he => ?_
  have hlive := h.held e he
  simp only [decide_eq_true_eq]
  rintro rfl
  exact hlive hnone

/-- A path does not depend on cells that it does not visit. -/
theorem ptr_update_of_ne {foo' : Option Foo} {a : ℕ} (ha : a ≠ fp) :
    ({ s with foo := Function.update s.foo fp foo' } : State).ptr a = s.ptr a := by
  simp [ptr, ha]

theorem ptr_of_update (h : s'.foo = Function.update s.foo fp (some o)) :
    s'.ptr = Function.update s.ptr fp o.f_next := by
  funext a
  by_cases ha : a = fp
  · subst ha
    simp [ptr, h]
  · simp [ptr, h, ha]

theorem Inv.alloc (h : s.Inv v chain) (hidle : s.thread t = .idle) (hfp : fp ≠ 0)
    (hnone : s.foo fp = none) :
    ({ (s.setFoo fp ⟨1, none, id, 0, s.serials⟩).go t (.alloc fp) with
      live := fp :: s.live
      held := (t, fp) :: s.held
      serials := s.serials + 1 } : State).Inv v chain := by
  have hrefs : ∀ a, ({ (s.setFoo fp ⟨1, none, id, 0, s.serials⟩).go t (.alloc fp) with
      live := fp :: s.live
      held := (t, fp) :: s.held
      serials := s.serials + 1 } : State).refs a = s.refs a + if fp = a then 1 else 0 := fun a => by
    simp [refs, List.countP_cons]
  have hnotowned : ∀ u, (s.thread u).owns ≠ some fp := fun u hu => (h.owned hu).1 hnone
  have hold : ∀ {a p}, Function.update s.foo fp (some ⟨1, none, id, 0, s.serials⟩) a = some p →
      a ≠ fp → s.foo a = some p := fun hp ha => by rwa [Function.update_of_ne ha] at hp
  have hnew : ∀ {p}, Function.update s.foo fp (some ⟨1, none, id, 0, s.serials⟩) fp = some p →
      p = ⟨1, none, id, 0, s.serials⟩ := fun hp => by
    rw [Function.update_self] at hp
    exact (Option.some.inj hp).symm
  have hne : ∀ {i a}, a ∈ chain i → a ≠ fp := fun hmem => by
    rintro rfl
    exact h.not_mem_chain hnone _ hmem
  have hnotfree : ∀ u a, Function.update s.thread t (.alloc fp) u = .releFree a →
      s.thread u = .releFree a := fun u a hu => by
    by_cases hut : u = t
    · subst hut
      rw [Function.update_self] at hu
      cases hu
    · rwa [Function.update_of_ne hut] at hu
  refine ⟨⟨fun i => ?_, h.shape.nodup, fun i a ha => ?_, ?_, fun a p hp => ?_⟩, h.noFault,
    fun a p hp => ?_, fun e he => ?_, fun u => ?_, fun a p hp => ?_, fun u w a hu hw => ?_, ?_⟩
  · refine path_congr (fun a ha => ?_) (h.shape.path i)
    exact ptr_update_of_ne (hne ha)
  · obtain ⟨p, hp, hi⟩ := h.shape.hashed i a ha
    exact ⟨p, (Function.update_of_ne (hne ha) _ _).trans hp, hi⟩
  · exact (Function.update_of_ne (Ne.symm hfp) _ _).trans h.shape.null
  · by_cases ha : a = fp
    · exact List.mem_cons.mpr (Or.inl ha)
    · exact List.mem_cons_of_mem _ (h.shape.live a p (hold hp ha))
  · rw [hrefs]
    by_cases ha : a = fp
    · subst ha
      rw [hnew hp, h.refs_of_none hnone, if_pos rfl]
      rfl
    · simp [h.count a p (hold hp ha), Ne.symm ha]
  · rcases List.mem_cons.mp he with rfl | he
    · simp [setFoo, go]
    · have hlive := h.held e he
      have hefp : e.2 ≠ fp := by
        rintro rfl
        exact hlive hnone
      simpa [setFoo, go, hefp] using hlive
  · change ThreadOk v _ chain u (Function.update s.thread t (.alloc fp) u)
    by_cases hu : u = t
    · subst hu
      rw [Function.update_self]
      refine ⟨List.mem_cons_self, ?_, h.not_mem_chain hnone⟩
      rw [hrefs, h.refs_of_none hnone, if_pos rfl]
    · rw [Function.update_of_ne hu]
      refine (h.thread u).keep (fun a ha => List.mem_cons_of_mem _ ha) (fun hmine => hmine)
        (fun a ha => ?_) (fun a ha _ => ?_)
      · obtain ⟨hlive, hchain, -⟩ := h.owned ha
        have hafp : a ≠ fp := by
          rintro rfl
          exact hnotowned u ha
        refine ⟨by simpa [setFoo, go, hafp] using hlive, hchain, ?_⟩
        rw [hrefs, if_neg (Ne.symm hafp), Nat.add_zero]
      · have hthread := h.thread u
        rw [ha] at hthread
        exact hthread.2
  · change Function.update s.foo fp _ a = some p at hp
    by_cases ha : a = fp
    · subst ha
      exact Or.inr ⟨t, by simp [go, setFoo, Pc.owns]⟩
    · rcases h.placed a p (hold hp ha) with hmem | ⟨u, hu⟩
      · exact Or.inl hmem
      · refine Or.inr ⟨u, ?_⟩
        have hut : u ≠ t := by
          rintro rfl
          rw [hidle] at hu
          cases hu
        simpa [go, setFoo, hut] using hu
  · exact h.single u w a (hnotfree u a hu) (hnotfree w a hw)
  · obtain ⟨hfresh, hdistinct, halive, hdying, hknown, haccounted, horder, hlast, honce,
      hfreedOnce⟩ := h.records
    have hunused : s.serials ∉ s.unlinked.map Prod.fst := fun hmem =>
      Nat.lt_irrefl _ (hknown _ hmem)
    refine ⟨fun a p hp => ?_, fun a b p q hp hq heq => ?_, fun a p hp => ?_, fun a p hp => ?_,
      fun n hn => Nat.lt_succ_of_lt (hknown n hn), fun n hn => ?_, horder, hlast, honce, hfreedOnce⟩
    · by_cases ha : a = fp
      · subst ha
        rw [hnew hp]
        exact Nat.lt_succ_self _
      · exact Nat.lt_succ_of_lt (hfresh a p (hold hp ha))
    · by_cases ha : a = fp
      · subst ha
        by_cases hb : b = a
        · exact hb.symm
        · have hlt := hfresh b q (hold hq hb)
          rw [← heq, hnew hp] at hlt
          exact absurd hlt (Nat.lt_irrefl _)
      · by_cases hb : b = fp
        · subst hb
          have hlt := hfresh a p (hold hp ha)
          rw [heq, hnew hq] at hlt
          exact absurd hlt (Nat.lt_irrefl _)
        · exact hdistinct a b p q (hold hp ha) (hold hq hb) heq
    · by_cases ha : a = fp
      · subst ha
        rw [hnew hp]
        exact fun hmem => hunused (horder _ hmem)
      · exact halive a p (hold hp ha)
    · by_cases ha : a = fp
      · subst ha
        rw [hnew hp]
        refine iff_of_false hunused ?_
        rintro ⟨u, hu⟩
        exact absurd (by rw [hnotfree u a hu]; rfl) (hnotowned u)
      · refine (hdying a p (hold hp ha)).trans (exists_congr fun u => ⟨fun hu => ?_, hnotfree u a⟩)
        have hut : u ≠ t := by
          rintro rfl
          rw [hidle] at hu
          cases hu
        exact (Function.update_of_ne hut _ _).trans hu
    · rcases Nat.lt_succ_iff_lt_or_eq.mp hn with hn | rfl
      · refine (haccounted n hn).imp_right ?_
        rintro ⟨a, p, hp, hs⟩
        refine ⟨a, p, ?_, hs⟩
        have ha : a ≠ fp := by
          rintro rfl
          rw [hnone] at hp
          cases hp
        exact (Function.update_of_ne ha _ _).trans hp
      · exact Or.inr ⟨fp, _, Function.update_self .., rfl⟩

/-- An allocated object is put into its chain. -/
theorem Inv.link (h : s.Inv v chain) (hpc : s.thread t = .alloc fp) (hfree : s.hashlock = none)
    (ho : s.foo fp = some o) :
    ({ (s.setFoo fp { o with f_next := s.fh (hash o.f_id) }).go t (.allocLinked fp) with
      fh := Function.update s.fh (hash o.f_id) fp
      hashlock := some t } : State).Inv v
        (Function.update chain (hash o.f_id) (fp :: chain (hash o.f_id))) := by
  have hthread := h.thread t
  rw [hpc] at hthread
  obtain ⟨hmem, hone, hchain⟩ := hthread
  have hup : ∀ {i a}, a ∈ chain i →
      a ∈ Function.update chain (hash o.f_id) (fp :: chain (hash o.f_id)) i := fun {i a} ha => by
    by_cases hi : i = hash o.f_id
    · subst hi
      rw [Function.update_self]
      exact List.mem_cons_of_mem _ ha
    · rwa [Function.update_of_ne hi]
  have hdown : ∀ {i a}, a ∈ Function.update chain (hash o.f_id) (fp :: chain (hash o.f_id)) i →
      a ≠ fp → a ∈ chain i := fun {i a} ha hafp => by
    by_cases hi : i = hash o.f_id
    · subst hi
      rw [Function.update_self] at ha
      exact (List.mem_cons.mp ha).resolve_left hafp
    · rwa [Function.update_of_ne hi] at ha
  have hold : ∀ {a p}, Function.update s.foo fp (some { o with f_next := s.fh (hash o.f_id) }) a =
      some p → ∃ q, s.foo a = some q ∧ q.f_count = p.f_count ∧ q.f_id = p.f_id ∧
        q.serial = p.serial := fun {a p} hp => by
    by_cases ha : a = fp
    · subst ha
      rw [Function.update_self] at hp
      obtain rfl := Option.some.inj hp
      exact ⟨o, ho, rfl, rfl, rfl⟩
    · rw [Function.update_of_ne ha] at hp
      exact ⟨p, hp, rfl, rfl, rfl⟩
  have hlive : ∀ {a}, s.foo a ≠ none →
      Function.update s.foo fp (some { o with f_next := s.fh (hash o.f_id) }) a ≠ none :=
    fun {a} ha => by
      by_cases hafp : a = fp
      · subst hafp
        simp
      · simpa [hafp] using ha
  have hfreeIff : ∀ u a, Function.update s.thread t (.allocLinked fp) u = .releFree a ↔
      s.thread u = .releFree a := fun u a => by
    by_cases hut : u = t
    · subst hut
      rw [Function.update_self, hpc]
      simp
    · rw [Function.update_of_ne hut]
  have hptr : ({ (s.setFoo fp { o with f_next := s.fh (hash o.f_id) }).go t (.allocLinked fp) with
      fh := Function.update s.fh (hash o.f_id) fp
      hashlock := some t } : State).ptr = Function.update s.ptr fp (s.fh (hash o.f_id)) :=
    ptr_of_update (o := { o with f_next := s.fh (hash o.f_id) }) rfl
  have hpath : ∀ i, Path (Function.update s.ptr fp (s.fh (hash o.f_id))) (s.fh i) (chain i) 0 := by
    intro i
    refine path_congr (fun a ha => Function.update_of_ne ?_ _ _) (h.shape.path i)
    rintro rfl
    exact hchain i ha
  refine ⟨⟨fun i => ?_, fun i => ?_, fun i a ha => ?_, ?_, fun a p hp => ?_⟩, h.noFault,
    fun a p hp => ?_, fun e he => hlive (h.held e he), fun u => ?_, fun a p hp => ?_,
    fun u w a hu hw => ?_, ?_⟩
  · rw [hptr]
    by_cases hi : i = hash o.f_id
    · subst hi
      simp only [Function.update_self]
      refine ⟨rfl, ?_⟩
      rw [Function.update_self]
      exact hpath _
    · simp only [Function.update_of_ne hi]
      exact hpath i
  · by_cases hi : i = hash o.f_id
    · subst hi
      rw [Function.update_self]
      exact List.nodup_cons.mpr ⟨hchain _, h.shape.nodup _⟩
    · rw [Function.update_of_ne hi]
      exact h.shape.nodup i
  · by_cases hafp : a = fp
    · subst hafp
      have hi : i = hash o.f_id := by
        by_contra hi
        rw [Function.update_of_ne hi] at ha
        exact hchain i ha
      exact ⟨_, Function.update_self .., hi.symm⟩
    · obtain ⟨p, hp, hi⟩ := h.shape.hashed i a (hdown ha hafp)
      exact ⟨p, (Function.update_of_ne hafp _ _).trans hp, hi⟩
  · have hfp : fp ≠ 0 := by
      rintro rfl
      rw [h.shape.null] at ho
      cases ho
    exact (Function.update_of_ne (Ne.symm hfp) _ _).trans h.shape.null
  · obtain ⟨q, hq, -⟩ := hold hp
    exact h.shape.live a q hq
  · obtain ⟨q, hq, hcount, -⟩ := hold hp
    rw [← hcount]
    exact h.count a q hq
  · change ThreadOk v _ _ u (Function.update s.thread t (.allocLinked fp) u)
    by_cases hu : u = t
    · subst hu
      rw [Function.update_self]
      exact ⟨rfl, hmem⟩
    · rw [Function.update_of_ne hu]
      refine (h.thread u).keep (fun a ha => ha) (fun hmine => ?_) (fun a ha => ?_)
        (fun a ha hmine => ?_)
      · rw [hfree] at hmine
        cases hmine
      · obtain ⟨hlivea, hchaina, honly⟩ := h.owned ha
        have hafp : a ≠ fp := by
          rintro rfl
          exact hu (honly t hmem).symm
        exact ⟨hlive hlivea, fun i hi => hchaina i (hdown hi hafp), rfl⟩
      · rw [hfree] at hmine
        cases hmine
  · obtain ⟨q, hq, -, hid, -⟩ := hold hp
    rw [← hid]
    by_cases hafp : a = fp
    · subst hafp
      obtain rfl := Option.some.inj (ho.symm.trans hq)
      refine Or.inl ?_
      rw [Function.update_self]
      exact List.mem_cons_self
    · rcases h.placed a q hq with hmem | ⟨u, hu⟩
      · exact Or.inl (hup hmem)
      · refine Or.inr ⟨u, ?_⟩
        have hut : u ≠ t := by
          rintro rfl
          rw [hpc] at hu
          exact hafp (Option.some.inj hu).symm
        simpa [go, setFoo, hut] using hu
  · exact h.single u w a ((hfreeIff u a).mp hu) ((hfreeIff w a).mp hw)
  · obtain ⟨hfresh, hdistinct, halive, hdying, hknown, haccounted, horder, hlast, honce,
      hfreedOnce⟩ := h.records
    refine ⟨fun a p hp => ?_, fun a b p q hp hq heq => ?_, fun a p hp => ?_, fun a p hp => ?_,
      hknown, fun n hn => ?_, horder, hlast, honce, hfreedOnce⟩
    · obtain ⟨q, hq, -, -, hs⟩ := hold hp
      rw [← hs]
      exact hfresh a q hq
    · obtain ⟨p', hp', -, -, hs⟩ := hold hp
      obtain ⟨q', hq', -, -, hs'⟩ := hold hq
      exact hdistinct a b p' q' hp' hq' (hs.trans (heq.trans hs'.symm))
    · obtain ⟨q, hq, -, -, hs⟩ := hold hp
      rw [← hs]
      exact halive a q hq
    · obtain ⟨q, hq, -, -, hs⟩ := hold hp
      rw [← hs]
      refine (hdying a q hq).trans ?_
      exact exists_congr fun u => (hfreeIff u a).symm
    · refine (haccounted n hn).imp_right ?_
      rintro ⟨a, p, hp, hs⟩
      refine ⟨a, ?_⟩
      by_cases ha : a = fp
      · subst ha
        obtain rfl := Option.some.inj (ho.symm.trans hp)
        exact ⟨_, Function.update_self .., hs⟩
      · exact ⟨p, (Function.update_of_ne ha _ _).trans hp, hs⟩

theorem exists_of_body (h : s.SameBodies s') {a : ℕ} {q : Foo} (hq : s'.foo a = some q) :
    ∃ p, s.foo a = some p ∧ p.f_count = q.f_count ∧ p.f_id = q.f_id ∧ p.serial = q.serial := by
  have ha := (h a).symm
  rw [hq] at ha
  obtain ⟨p, hp, hbody⟩ := Option.map_eq_some_iff.mp ha
  simp only [body, Prod.mk.injEq] at hbody
  exact ⟨p, hp, hbody.1, hbody.2.2.1, hbody.2.2.2⟩

theorem none_of_body (h : s.SameBodies s') {a : ℕ} : s'.foo a = none ↔ s.foo a = none := by
  rw [← Option.map_eq_none_iff (f := body), h a, Option.map_eq_none_iff]

/-- The object that only its releaser knows is taken out of its chain. -/
theorem Inv.unlink (h : s.Inv v chain) (howns : (s.thread t).owns = none) (ho : s.foo fp = some o)
    (hnot : ∀ u, (s.thread u).owns ≠ some fp) (hlock : ∀ u, s.hashlock = some u → u = t)
    (hrefs : match v with
      | .mutex2 => (t, fp) ∈ s.held ∧ s.refs fp = 1
      | .mutex3 => s.refs fp = 0) :
    (s.unlink t fp o 1).Inv v
      (Function.update chain (hash o.f_id) ((chain (hash o.f_id)).erase fp)) := by
  have hmem : fp ∈ chain (hash o.f_id) := by
    rcases h.placed fp o ho with hmem | ⟨u, hu⟩
    · exact hmem
    · exact absurd hu (hnot u)
  obtain ⟨s₁, hremove, hshape, hbodies, hsame⟩ := h.shape.remove ho hmem
  have hdown : ∀ {i a}, a ∈ Function.update chain (hash o.f_id) ((chain (hash o.f_id)).erase fp) i →
      a ∈ chain i := fun {i a} ha => by
    by_cases hi : i = hash o.f_id
    · subst hi
      rw [Function.update_self] at ha
      exact List.mem_of_mem_erase ha
    · rwa [Function.update_of_ne hi] at ha
  have hup : ∀ {i a}, a ∈ chain i → a ≠ fp →
      a ∈ Function.update chain (hash o.f_id) ((chain (hash o.f_id)).erase fp) i :=
    fun {i a} ha hafp => by
      by_cases hi : i = hash o.f_id
      · subst hi
        rw [Function.update_self]
        exact (List.mem_erase_of_ne hafp).mpr ha
      · rwa [Function.update_of_ne hi]
  have hgone : ∀ i, fp ∉ Function.update chain (hash o.f_id) ((chain (hash o.f_id)).erase fp) i := by
    intro i hi
    obtain ⟨p, hp, hpi⟩ := h.shape.hashed i fp (hdown hi)
    obtain rfl := Option.some.inj (ho.symm.trans hp)
    rw [← hpi, Function.update_self] at hi
    exact (h.shape.nodup _).not_mem_erase hi
  have hheld : s₁.held = s.held := by rw [hsame]
  have hthreads : s₁.thread = s.thread := by rw [hsame]
  have hserials : s₁.serials = s.serials := by rw [hsame]
  have hfreed : s₁.freed = s.freed := by rw [hsame]
  have hnew : s.unlink t fp o 1 = { s₁.go t (.releFree fp) with
      hashlock := none
      unlinked := (o.serial, 1) :: s.unlinked } := by
    rw [State.unlink, hremove]
  have hrefseq : ∀ a, (s.unlink t fp o 1).refs a = s.refs a := fun a => by
    rw [hnew]
    change s₁.held.countP _ = _
    rw [hheld]
    rfl
  have hthread : (s.unlink t fp o 1).thread = Function.update s.thread t (.releFree fp) := by
    rw [hnew, ← hthreads]
    rfl
  have hfoo : (s.unlink t fp o 1).foo = s₁.foo := by
    rw [hnew]
    rfl
  have hunlinked : (s.unlink t fp o 1).unlinked = (o.serial, 1) :: s.unlinked := by rw [hnew]
  have hheld' : (s.unlink t fp o 1).held = s.held := by
    rw [hnew, ← hheld]
    rfl
  have hfreeIff : ∀ u a, a ≠ fp → ((s.unlink t fp o 1).thread u = .releFree a ↔
      s.thread u = .releFree a) := fun u a hafp => by
    rw [hthread]
    by_cases hut : u = t
    · subst hut
      rw [Function.update_self]
      constructor
      · intro heq
        exact absurd (Pc.releFree.inj heq).symm hafp
      · intro heq
        rw [heq] at howns
        cases howns
    · rw [Function.update_of_ne hut]
  have hfreefp : ∀ u, (s.unlink t fp o 1).thread u = .releFree fp → u = t := fun u hu => by
    by_contra hut
    rw [hthread, Function.update_of_ne hut] at hu
    exact hnot u (by rw [hu]; rfl)
  refine ⟨?_, ?_, fun a p hp => ?_, fun e he => ?_, fun u => ?_, fun a p hp => ?_,
    fun u w a hu hw => ?_, ?_⟩
  · rw [hnew]
    exact hshape.congr (fun _ => rfl) rfl rfl
  · rw [hnew]
    change s₁.fault = false
    rw [hsame]
    exact h.noFault
  · rw [hfoo] at hp
    obtain ⟨q, hq, hcount, -⟩ := exists_of_body hbodies hp
    rw [hrefseq, ← hcount]
    exact h.count a q hq
  · rw [hheld'] at he
    rw [hfoo]
    exact fun hnone => h.held e he ((none_of_body hbodies).mp hnone)
  · rw [hthread]
    by_cases hu : u = t
    · subst hu
      rw [Function.update_self]
      refine ⟨?_, hgone, ?_⟩
      · rw [hfoo]
        intro hnone
        rw [(none_of_body hbodies).mp hnone] at ho
        cases ho
      · cases v with
        | mutex2 => exact ⟨hheld' ▸ hrefs.1, (hrefseq fp).trans hrefs.2⟩
        | mutex3 => exact (hrefseq fp).trans hrefs
    · rw [Function.update_of_ne hu]
      refine (h.thread u).keep (fun a ha => hheld' ▸ ha) (fun hmine => absurd (hlock u hmine) hu)
        (fun a ha => ?_) (fun a ha hmine => absurd (hlock u hmine) hu)
      obtain ⟨hlivea, hchaina, -⟩ := h.owned ha
      refine ⟨?_, fun i hi => hchaina i (hdown hi), hrefseq a⟩
      rw [hfoo]
      exact fun hnone => hlivea ((none_of_body hbodies).mp hnone)
  · rw [hfoo] at hp
    obtain ⟨q, hq, -, hid, -⟩ := exists_of_body hbodies hp
    rw [hthread, ← hid]
    by_cases hafp : a = fp
    · subst hafp
      exact Or.inr ⟨t, by rw [Function.update_self]; rfl⟩
    · rcases h.placed a q hq with hin | ⟨u, hu⟩
      · exact Or.inl (hup hin hafp)
      · refine Or.inr ⟨u, ?_⟩
        have hut : u ≠ t := by
          rintro rfl
          rw [howns] at hu
          cases hu
        rw [Function.update_of_ne hut]
        exact hu
  · by_cases hafp : a = fp
    · subst hafp
      exact (hfreefp u hu).trans (hfreefp w hw).symm
    · exact h.single u w a ((hfreeIff u a hafp).mp hu) ((hfreeIff w a hafp).mp hw)
  · obtain ⟨hfresh, hdistinct, halive, hdying, hknown, haccounted, horder, hlast, honce,
      hfreedOnce⟩ := h.records
    have hnotyet : o.serial ∉ s.unlinked.map Prod.fst := fun hin => by
      obtain ⟨u, hu⟩ := (hdying fp o ho).mp hin
      exact hnot u (by rw [hu]; rfl)
    have hserials' : (s.unlink t fp o 1).serials = s.serials := by
      rw [hnew, ← hserials]
      rfl
    have hfreed' : (s.unlink t fp o 1).freed = s.freed := by
      rw [hnew, ← hfreed]
      rfl
    refine ⟨fun a p hp => ?_, fun a b p q hp hq heq => ?_, fun a p hp => ?_, fun a p hp => ?_,
      fun n hn => ?_, fun n hn => ?_, fun n hn => ?_, fun e he => ?_, ?_, ?_⟩
    · rw [hfoo] at hp
      obtain ⟨q, hq, -, -, hs⟩ := exists_of_body hbodies hp
      rw [hserials', ← hs]
      exact hfresh a q hq
    · rw [hfoo] at hp hq
      obtain ⟨p', hp', -, -, hs⟩ := exists_of_body hbodies hp
      obtain ⟨q', hq', -, -, hs'⟩ := exists_of_body hbodies hq
      exact hdistinct a b p' q' hp' hq' (hs.trans (heq.trans hs'.symm))
    · rw [hfoo] at hp
      obtain ⟨q, hq, -, -, hs⟩ := exists_of_body hbodies hp
      rw [hfreed', ← hs]
      exact halive a q hq
    · rw [hfoo] at hp
      obtain ⟨q, hq, -, -, hs⟩ := exists_of_body hbodies hp
      rw [hunlinked, ← hs, List.map_cons, List.mem_cons]
      by_cases hafp : a = fp
      · subst hafp
        obtain rfl := Option.some.inj (ho.symm.trans hq)
        exact ⟨fun _ => ⟨t, by rw [hthread, Function.update_self]⟩, fun _ => Or.inl rfl⟩
      · have hne : q.serial ≠ o.serial := fun heq => hafp (hdistinct a fp q o hq ho heq)
        simp only [hne, false_or]
        refine (hdying a q hq).trans ?_
        exact exists_congr fun u => (hfreeIff u a hafp).symm
    · rw [hunlinked, List.map_cons, List.mem_cons] at hn
      rw [hserials']
      rcases hn with rfl | hn
      · exact hfresh fp o ho
      · exact hknown n hn
    · rw [hserials'] at hn
      rw [hfreed', hfoo]
      refine (haccounted n hn).imp_right fun ⟨a, p, hp, hs⟩ => ?_
      obtain ⟨q, hq, -, -, hs'⟩ := exists_of_body (fun a => (hbodies a).symm) hp
      exact ⟨a, q, hq, hs'.trans hs⟩
    · rw [hfreed'] at hn
      rw [hunlinked]
      exact List.mem_cons_of_mem _ (horder n hn)
    · rw [hunlinked] at he
      rcases List.mem_cons.mp he with rfl | he
      · rfl
      · exact hlast e he
    · rw [hunlinked]
      exact List.nodup_cons.mpr ⟨hnotyet, honce⟩
    · rw [hfreed']
      exact hfreedOnce

/-- The releaser frees the object. -/
theorem Inv.free {held' : List (ℕ × ℕ)}
    (hheld' : held' = match v with
      | .mutex2 => s.held.erase (t, fp)
      | .mutex3 => s.held)
    (h : s.Inv v chain) (hpc : s.thread t = .releFree fp) (ho : s.foo fp = some o) :
    ({ s.go t .idle with
      foo := Function.update s.foo fp none
      live := s.live.erase fp
      held := held'
      freed := o.serial :: s.freed } : State).Inv v chain := by
  have hthread := h.thread t
  rw [hpc] at hthread
  obtain ⟨-, hchain, hlastref⟩ := hthread
  obtain ⟨hsub, hkeep, hother, hzero⟩ : (∀ e ∈ held', e ∈ s.held) ∧
      (∀ u a, u ≠ t → (u, a) ∈ s.held → (u, a) ∈ held') ∧
      (∀ a, a ≠ fp → held'.countP (fun e => e.2 = a) = s.refs a) ∧ ∀ e ∈ held', e.2 ≠ fp := by
    subst hheld'
    cases v with
    | mutex2 =>
      refine ⟨fun e he => List.mem_of_mem_erase he, fun u a hu ha => ?_, fun a ha => ?_,
        fun e he heq => ?_⟩
      · refine (List.mem_erase_of_ne ?_).mpr ha
        simp [hu]
      · simp [refs, List.countP_erase, Ne.symm ha]
      · have hcount : (s.held.erase (t, fp)).countP (fun e => e.2 = fp) = 0 := by
          have hone := hlastref.2
          rw [refs] at hone
          simp [List.countP_erase, hlastref.1, hone]
        simpa [heq] using List.countP_eq_zero.mp hcount e he
    | mutex3 =>
      refine ⟨fun e he => he, fun u a _ ha => ha, fun a _ => rfl, fun e he heq => ?_⟩
      simpa [heq] using List.countP_eq_zero.mp hlastref e he
  have hold : ∀ {a p}, Function.update s.foo fp none a = some p → s.foo a = some p ∧ a ≠ fp :=
    fun {a p} hp => by
      by_cases ha : a = fp
      · subst ha
        rw [Function.update_self] at hp
        cases hp
      · exact ⟨by rwa [Function.update_of_ne ha] at hp, ha⟩
  have hfreeIff : ∀ u a, a ≠ fp → (Function.update s.thread t .idle u = .releFree a ↔
      s.thread u = .releFree a) := fun u a hafp => by
    by_cases hut : u = t
    · subst hut
      rw [Function.update_self, hpc]
      simp [Ne.symm hafp]
    · rw [Function.update_of_ne hut]
  have hfreeOld : ∀ u a, Function.update s.thread t .idle u = .releFree a →
      s.thread u = .releFree a := fun u a hu => by
    by_cases hut : u = t
    · subst hut
      rw [Function.update_self] at hu
      cases hu
    · rwa [Function.update_of_ne hut] at hu
  have howner : ∀ u, u ≠ t → (s.thread u).owns ≠ some fp := fun u hu hown => by
    cases hpcu : s.thread u <;> rw [hpcu] at hown
    case alloc a =>
      obtain rfl := Option.some.inj hown
      have hmine := h.thread u
      rw [hpcu] at hmine
      exact hu ((h.owned (u := t) (by rw [hpc]; rfl)).2.2 u hmine.1)
    case releFree a =>
      obtain rfl := Option.some.inj hown
      exact hu (h.single u t a hpcu hpc)
    all_goals cases hown
  have hne : ∀ {i a}, a ∈ chain i → a ≠ fp := fun ha => by
    rintro rfl
    exact hchain _ ha
  refine ⟨⟨fun i => ?_, h.shape.nodup, fun i a ha => ?_, ?_, fun a p hp => ?_⟩, h.noFault,
    fun a p hp => ?_, fun e he => ?_, fun u => ?_, fun a p hp => ?_, fun u w a hu hw => ?_, ?_⟩
  · refine path_congr (fun a ha => ?_) (h.shape.path i)
    exact ptr_update_of_ne (hne ha)
  · obtain ⟨p, hp, hi⟩ := h.shape.hashed i a ha
    exact ⟨p, (Function.update_of_ne (hne ha) _ _).trans hp, hi⟩
  · by_cases h0 : (0 : ℕ) = fp
    · rw [h0]
      exact Function.update_self ..
    · exact (Function.update_of_ne h0 _ _).trans h.shape.null
  · obtain ⟨hp, ha⟩ := hold hp
    exact (List.mem_erase_of_ne ha).mpr (h.shape.live a p hp)
  · obtain ⟨hp, ha⟩ := hold hp
    rw [h.count a p hp]
    exact congrArg (fun n : ℕ => toInt n) (hother a ha).symm
  · exact fun hnone => h.held e (hsub e he)
      ((Function.update_of_ne (hzero e he) _ _).symm.trans hnone)
  · change ThreadOk v _ chain u (Function.update s.thread t .idle u)
    by_cases hu : u = t
    · subst hu
      rw [Function.update_self]
      trivial
    · rw [Function.update_of_ne hu]
      refine (h.thread u).keep (fun a ha => hkeep u a hu ha) (fun hmine => hmine)
        (fun a ha => ?_) (fun a ha _ => ?_)
      · obtain ⟨hlive, hchaina, -⟩ := h.owned ha
        have hafp : a ≠ fp := by
          rintro rfl
          exact howner u hu ha
        refine ⟨fun hnone => hlive ((Function.update_of_ne hafp _ _).symm.trans hnone), hchaina, ?_⟩
        exact hother a hafp
      · have hthread := h.thread u
        rw [ha] at hthread
        exact hthread.2
  · obtain ⟨hp, ha⟩ := hold hp
    rcases h.placed a p hp with hmem | ⟨u, hu⟩
    · exact Or.inl hmem
    · refine Or.inr ⟨u, ?_⟩
      have hut : u ≠ t := by
        rintro rfl
        rw [hpc] at hu
        exact ha (Option.some.inj hu).symm
      simpa [go, hut] using hu
  · exact h.single u w a (hfreeOld u a hu) (hfreeOld w a hw)
  · obtain ⟨hfresh, hdistinct, halive, hdying, hknown, haccounted, horder, hlast, honce,
      hfreedOnce⟩ := h.records
    have hdead : o.serial ∈ s.unlinked.map Prod.fst := (hdying fp o ho).mpr ⟨t, hpc⟩
    refine ⟨fun a p hp => hfresh a p (hold hp).1, fun a b p q hp hq heq => ?_, fun a p hp => ?_,
      fun a p hp => ?_, hknown, fun n hn => ?_, fun n hn => ?_, hlast, honce, ?_⟩
    · exact hdistinct a b p q (hold hp).1 (hold hq).1 heq
    · obtain ⟨hp, ha⟩ := hold hp
      intro hin
      rcases List.mem_cons.mp hin with heq | hin
      · exact ha (hdistinct a fp p o hp ho heq)
      · exact halive a p hp hin
    · obtain ⟨hp, ha⟩ := hold hp
      refine (hdying a p hp).trans ?_
      exact exists_congr fun u => (hfreeIff u a ha).symm
    · rcases haccounted n hn with hin | ⟨a, p, hp, rfl⟩
      · exact Or.inl (List.mem_cons_of_mem _ hin)
      · by_cases ha : a = fp
        · subst ha
          obtain rfl := Option.some.inj (ho.symm.trans hp)
          exact Or.inl List.mem_cons_self
        · exact Or.inr ⟨a, p, (Function.update_of_ne ha _ _).trans hp, rfl⟩
    · rcases List.mem_cons.mp hn with rfl | hn
      · exact hdead
      · exact horder n hn
    · exact List.nodup_cons.mpr ⟨halive fp o ho, hfreedOnce⟩

theorem give_refs {u : ℕ} (hmem : (t, fp) ∈ s.held) (a : ℕ) :
    ({ s with held := (u, fp) :: s.held.erase (t, fp) } : State).refs a = s.refs a := by
  by_cases ha : fp = a
  · subst ha
    have hpos := refs_pos hmem
    simp only [refs] at hpos
    simp only [refs, List.countP_cons, List.countP_erase, hmem, decide_true, and_self, if_true]
    omega
  · simp [refs, List.countP_erase, ha]

/-- A thread gives a reference to another one between its calls. -/
theorem Inv.give (h : s.Inv v chain) {u : ℕ} (hidle : s.thread t = .idle)
    (hmem : (t, fp) ∈ s.held) :
    ({ s with held := (u, fp) :: s.held.erase (t, fp) } : State).Inv v chain := by
  have howns : (s.thread t).owns = none := by
    rw [hidle]
    rfl
  have hthread : s.thread = Function.update s.thread t .idle := by
    rw [← hidle, Function.update_eq_self]
  refine h.act (t := t) (fun _ => rfl) rfl hthread howns rfl (fun a p hp => ?_) (fun e he => ?_)
    (fun w a hw ha => ?_) (fun _ a _ => give_refs hmem a) (Or.inl rfl) trivial
  · rw [give_refs hmem]
    exact h.count a p hp
  · rcases List.mem_cons.mp he with rfl | he
    · exact h.held (t, fp) hmem
    · exact h.held e (List.mem_of_mem_erase he)
  · refine List.mem_cons_of_mem _ ((List.mem_erase_of_ne ?_).mpr ha)
    simp [hw]

end State

end Apue.FooTable
