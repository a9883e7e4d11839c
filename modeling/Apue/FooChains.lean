import Apue.FooModel
import Mathlib.Data.List.Perm.Subperm
import Mathlib.Data.List.Lattice

/-!
The chains of the hash table. Each chain leads through allocated objects with its hash
value, so that the loop of foo_find ends, and the loop of foo_rele finds the object before
the one that is removed.
-/
namespace Apue.FooTable

open Programs Pointers

namespace State

/-- The field f_next by address. -/
def ptr (s : State) (a : ℕ) : ℕ := ((s.foo a).map Foo.f_next).getD 0

/-- The chains of the table. -/
structure Shape (s : State) (chain : ℕ → List ℕ) : Prop where
  path : ∀ i, Path s.ptr (s.fh i) (chain i) 0
  nodup : ∀ i, (chain i).Nodup
  hashed : ∀ i, ∀ a ∈ chain i, ∃ o, s.foo a = some o ∧ hash o.f_id = i
  null : s.foo 0 = none
  live : ∀ a o, s.foo a = some o → a ∈ s.live

variable {s s' : State} {chain : ℕ → List ℕ} {i a : ℕ} {o : Foo}

theorem ptr_eq (h : s.foo a = some o) : s.ptr a = o.f_next := by
  simp [ptr, h]

theorem Shape.length_le (h : s.Shape chain) (i : ℕ) : (chain i).length ≤ s.live.length := by
  refine ((List.subperm_of_subset (h.nodup i)) fun a ha => ?_).length_le
  obtain ⟨o, ho, -⟩ := h.hashed i a ha
  exact h.live a o ho

/-- The search ends at the end of the chain or at an object with the number. -/
theorem search_path {id : ℤ} {l : List ℕ} {fuel p : ℕ} (hnull : s.foo 0 = none)
    (hp : Path s.ptr p l 0) (hl : ∀ a ∈ l, ∃ o, s.foo a = some o) (hfuel : l.length < fuel) :
    ∃ r, s.search id fuel p = some r ∧ (r = 0 ∨ r ∈ l ∧ ∃ o, s.foo r = some o ∧ o.f_id = id) := by
  induction l generalizing p fuel with
  | nil =>
    obtain ⟨fuel, rfl⟩ := Nat.exists_eq_add_of_lt hfuel
    obtain rfl : p = 0 := hp
    exact ⟨0, by simp [search], Or.inl rfl⟩
  | cons a l ih =>
    obtain ⟨rfl, hrest⟩ := hp
    obtain ⟨fuel, rfl⟩ := Nat.exists_eq_add_of_lt hfuel
    obtain ⟨o, ho⟩ := hl p List.mem_cons_self
    have hne : p ≠ 0 := by
      rintro rfl
      rw [hnull] at ho
      cases ho
    by_cases hid : o.f_id = id
    · exact ⟨p, by simp [search, hne, ho, hid], Or.inr ⟨List.mem_cons_self, o, ho, hid⟩⟩
    · rw [ptr_eq ho] at hrest
      obtain ⟨r, hr, hend⟩ := ih hrest (fun b hb => hl b (List.mem_cons_of_mem p hb))
        (show l.length < l.length + 1 + fuel by omega)
      refine ⟨r, ?_, hend.imp_right fun h => ⟨List.mem_cons_of_mem p h.1, h.2⟩⟩
      rw [List.length_cons, search, if_neg hne, ho]
      simpa [hid] using hr

/-- The loop of foo_rele stops at the object before the one that is removed. -/
theorem before_path {pre post : List ℕ} {fuel c : ℕ}
    (hp : Path s.ptr (s.ptr c) (pre ++ a :: post) 0) (hnodup : (c :: (pre ++ a :: post)).Nodup)
    (hl : ∀ b ∈ c :: pre, ∃ o, s.foo b = some o) (hfuel : pre.length < fuel) :
    s.before a fuel c = some (lastCell c pre) := by
  induction pre generalizing c fuel with
  | nil =>
    obtain ⟨fuel, rfl⟩ := Nat.exists_eq_add_of_lt hfuel
    obtain ⟨o, ho⟩ := hl c List.mem_cons_self
    rw [ptr_eq ho] at hp
    simp [before, ho, hp.1, lastCell]
  | cons b pre ih =>
    obtain ⟨fuel, rfl⟩ := Nat.exists_eq_add_of_lt hfuel
    obtain ⟨o, ho⟩ := hl c List.mem_cons_self
    rw [ptr_eq ho] at hp
    obtain ⟨hb, hrest⟩ := hp
    have hba : b ≠ a := by
      rintro rfl
      have htail := (List.nodup_cons.mp hnodup).2
      simp at htail
    rw [List.length_cons, before, ho]
    have hstep := ih hrest (List.nodup_cons.mp hnodup).2
      (fun x hx => hl x (List.mem_cons_of_mem c hx)) (show pre.length < pre.length + 1 + fuel by omega)
    simpa [hb, hba, lastCell] using hstep

/-- The parts of an object that do not belong to its chain. -/
def body (o : Foo) : ℤ × Option ℕ × ℤ × ℕ := (o.f_count, o.f_lock, o.f_id, o.serial)

/-- Two memories with the same objects up to the chains. -/
def SameBodies (s s' : State) : Prop := ∀ a, (s'.foo a).map body = (s.foo a).map body

/-- Removing an object from its chain. Nothing but the chain changes. -/
theorem Shape.remove (h : s.Shape chain) (ho : s.foo a = some o) (ha : a ∈ chain (hash o.f_id)) :
    ∃ s', s.remove a o = some s' ∧
      s'.Shape (Function.update chain (hash o.f_id) ((chain (hash o.f_id)).erase a)) ∧
      s.SameBodies s' ∧ s' = { s with foo := s'.foo, fh := s'.fh } := by
  obtain ⟨pre, post, hchain⟩ := List.append_of_mem ha
  have hnodup := h.nodup (hash o.f_id)
  have hpath := h.path (hash o.f_id)
  rw [hchain] at hnodup hpath
  have herase : (chain (hash o.f_id)).erase a = pre ++ post := by
    have hnot : a ∉ pre := fun hmem =>
      (List.nodup_append.mp hnodup).2.2 a hmem a List.mem_cons_self rfl
    rw [hchain, List.erase_append_right _ hnot, List.erase_cons_head]
  rw [herase]
  have hothers : ∀ j, j ≠ hash o.f_id → ∀ b ∈ chain j, b ∉ pre ++ a :: post := by
    intro j hj b hb hmem
    obtain ⟨p, hp, hpj⟩ := h.hashed j b hb
    obtain ⟨q, hq, hqi⟩ := h.hashed (hash o.f_id) b (hchain ▸ hmem)
    obtain rfl := Option.some.inj (hp.symm.trans hq)
    exact hj (hpj.symm.trans hqi)
  have hsub : ∀ b ∈ pre ++ post, b ∈ chain (hash o.f_id) := by
    intro b hb
    rw [hchain]
    rcases List.mem_append.mp hb with hb | hb
    · exact List.mem_append_left _ hb
    · exact List.mem_append_right _ (List.mem_cons_of_mem a hb)
  have hnodup' : (pre ++ post).Nodup :=
    hnodup.sublist (List.Sublist.append_left (List.sublist_cons_self a post) pre)
  cases pre with
  | nil =>
    obtain ⟨hhead, hrest⟩ := hpath
    rw [ptr_eq ho] at hrest
    refine ⟨_, if_pos hhead, ⟨fun j => ?_, fun j => ?_, fun j b hb => ?_, h.null, h.live⟩,
      fun _ => rfl, rfl⟩
    · change Path s.ptr (Function.update s.fh (hash o.f_id) o.f_next j) _ 0
      by_cases hj : j = hash o.f_id
      · subst hj
        simpa using hrest
      · simpa [hj] using h.path j
    · by_cases hj : j = hash o.f_id
      · subst hj
        simpa using hnodup'
      · simpa [hj] using h.nodup j
    · by_cases hj : j = hash o.f_id
      · subst hj
        simp only [Function.update_self] at hb
        exact h.hashed _ b (hsub b hb)
      · simp only [Function.update_of_ne hj] at hb
        exact h.hashed j b hb
  | cons c pre =>
    obtain ⟨hhead, hrest⟩ := hpath
    have hca : c ≠ a := by
      rintro rfl
      simp at hnodup
    have hl : ∀ b ∈ c :: pre, ∃ o, s.foo b = some o := fun b hb => by
      obtain ⟨p, hp, -⟩ := h.hashed (hash o.f_id) b (hchain ▸ List.mem_append_left _ hb)
      exact ⟨p, hp⟩
    have hlen := h.length_le (hash o.f_id)
    rw [hchain, List.length_append, List.length_cons, List.length_cons] at hlen
    have hbefore := before_path hrest hnodup hl (show pre.length < s.live.length by omega)
    obtain ⟨p, hp⟩ := hl _ (lastCell_mem c pre)
    have hptr : (s.setFoo (lastCell c pre) { p with f_next := o.f_next }).ptr =
        Function.update s.ptr (lastCell c pre) (s.ptr a) := by
      funext b
      by_cases hb : b = lastCell c pre
      · subst hb
        simp [ptr, setFoo, ho]
      · simp [ptr, setFoo, hb]
    refine ⟨s.setFoo (lastCell c pre) { p with f_next := o.f_next }, ?_,
      ⟨fun j => ?_, fun j => ?_, fun j b hb => ?_, ?_, fun b q hq => ?_⟩, fun b => ?_, rfl⟩
    · simp only [State.remove, hhead, if_neg hca, hbefore, hp]
    · rw [hptr]
      by_cases hj : j = hash o.f_id
      · subst hj
        have hlinked : Linked s.ptr c (pre ++ a :: post) := hrest
        rw [Function.update_self]
        exact ⟨hhead, linked_remove hnodup hlinked⟩
      · rw [Function.update_of_ne hj]
        refine path_congr (fun b hb => Function.update_of_ne ?_ _ _) (h.path j)
        rintro rfl
        exact hothers j hj _ hb (List.mem_append_left _ (lastCell_mem c pre))
    · by_cases hj : j = hash o.f_id
      · subst hj
        simpa using hnodup'
      · simpa [hj] using h.nodup j
    · have hmem : b ∈ chain j := by
        by_cases hj : j = hash o.f_id
        · subst hj
          rw [Function.update_self] at hb
          exact hsub b hb
        · rwa [Function.update_of_ne hj] at hb
      obtain ⟨q, hq, hqj⟩ := h.hashed j b hmem
      by_cases hb' : b = lastCell c pre
      · subst hb'
        obtain rfl := Option.some.inj (hp.symm.trans hq)
        exact ⟨_, Function.update_self .., hqj⟩
      · exact ⟨q, by simpa [setFoo, hb'] using hq, hqj⟩
    · have hne : (0 : ℕ) ≠ lastCell c pre := by
        intro h0
        rw [← h0, h.null] at hp
        cases hp
      simpa [setFoo, hne] using h.null
    · by_cases hb : b = lastCell c pre
      · subst hb
        exact h.live _ p hp
      · exact h.live b q (by simpa [setFoo, hb] using hq)
    · by_cases hb : b = lastCell c pre
      · subst hb
        simp [setFoo, hp, body]
      · simp [setFoo, hb]

end State

end Apue.FooTable
