import Mathlib.Data.List.Nodup
import Mathlib.Logic.Function.Basic

/-!
Doubly linked lists in a heap. A node holds a pointer to the next node, one to
the previous node and a value; the null pointer is `none`, and an address that
is not allocated has no node, so that an access through it fails. A segment is a
run of nodes whose links agree with each other, and a list is a segment with
null pointers at both ends.
-/
namespace Apue.DoublyLinked

structure Node (A V : Type) where
  next : Option A
  prev : Option A
  val : V

abbrev Heap (A V : Type) := A → Option (Node A V)

variable {A V : Type}

/-- The pointer to the first node of `l`, or `e` if there is none. -/
def firstOr : List A → Option A → Option A
  | [], e => e
  | a :: _, _ => some a

/-- The pointer to the last node of `l`, or `p` if there is none. -/
def lastOr : List A → Option A → Option A
  | [], p => p
  | a :: l, _ => lastOr l (some a)

/-- The nodes `l` are linked to each other both ways; `p` is the previous
pointer of the first one and `e` the next pointer of the last one. -/
def Segment (heap : Heap A V) : Option A → List A → Option A → Prop
  | _, [], _ => True
  | p, a :: l, e =>
    (∃ n, heap a = some n ∧ n.prev = p ∧ n.next = firstOr l e) ∧ Segment heap (some a) l e

/-- The list with the nodes `l` that starts at `head` and ends at `tail`. -/
structure IsList (heap : Heap A V) (head tail : Option A) (l : List A) : Prop where
  head_eq : head = firstOr l none
  tail_eq : tail = lastOr l none
  segment : Segment heap none l none
  nodup : l.Nodup

/-- The values of the nodes. -/
def vals (heap : Heap A V) (l : List A) : List V := l.filterMap fun a => (heap a).map Node.val

theorem firstOr_append (l l' : List A) (e : Option A) :
    firstOr (l ++ l') e = firstOr l (firstOr l' e) := by
  cases l <;> rfl

theorem lastOr_append (l l' : List A) (p : Option A) :
    lastOr (l ++ l') p = lastOr l' (lastOr l p) := by
  induction l generalizing p with
  | nil => rfl
  | cons a l ih => exact ih (some a)

theorem lastOr_concat (l : List A) (a : A) (p : Option A) : lastOr (l ++ [a]) p = some a :=
  lastOr_append l [a] p

theorem lastOr_ne_none {l : List A} (hl : l ≠ []) (p : Option A) : lastOr l p ≠ none := by
  obtain ⟨l, a, rfl⟩ := (List.eq_nil_or_concat' l).resolve_left hl
  rw [lastOr_concat]
  exact Option.some_ne_none a

theorem segment_append {heap : Heap A V} {p e : Option A} {l l' : List A} :
    Segment heap p (l ++ l') e ↔
      Segment heap p l (firstOr l' e) ∧ Segment heap (lastOr l p) l' e := by
  induction l generalizing p with
  | nil => exact ⟨fun h => ⟨trivial, h⟩, fun h => h.2⟩
  | cons a l ih =>
    simp only [List.cons_append, Segment, ih, firstOr_append, and_assoc]
    rfl

theorem Segment.alloc {heap : Heap A V} {p e : Option A} {l : List A} (h : Segment heap p l e)
    {a : A} (ha : a ∈ l) : ∃ n, heap a = some n := by
  induction l generalizing p with
  | nil => exact absurd ha List.not_mem_nil
  | cons b l ih =>
    rcases List.mem_cons.mp ha with rfl | ha
    · obtain ⟨⟨n, hn, -⟩, -⟩ := h
      exact ⟨n, hn⟩
    · exact ih h.2 ha

theorem segment_congr {heap heap' : Heap A V} {p e : Option A} {l : List A}
    (hagree : ∀ a ∈ l, heap' a = heap a) (h : Segment heap p l e) : Segment heap' p l e := by
  induction l generalizing p with
  | nil => trivial
  | cons a l ih =>
    obtain ⟨⟨n, hn, hlinks⟩, hrest⟩ := h
    refine ⟨⟨n, (hagree a List.mem_cons_self).trans hn, hlinks⟩, ih ?_ hrest⟩
    exact fun b hb => hagree b (List.mem_cons_of_mem _ hb)

theorem Segment.length_vals {heap : Heap A V} {p e : Option A} {l : List A}
    (h : Segment heap p l e) : (vals heap l).length = l.length := by
  induction l generalizing p with
  | nil => rfl
  | cons a l ih =>
    obtain ⟨⟨n, hn, -⟩, hrest⟩ := h
    have hcons : vals heap (a :: l) = n.val :: vals heap l := by
      rw [vals, List.filterMap_cons, hn]
      rfl
    rw [hcons, List.length_cons, List.length_cons, ih hrest]

theorem vals_congr {heap heap' : Heap A V} {l : List A}
    (hagree : ∀ a ∈ l, (heap' a).map Node.val = (heap a).map Node.val) :
    vals heap' l = vals heap l :=
  List.filterMap_congr hagree

theorem vals_append (heap : Heap A V) (l l' : List A) :
    vals heap (l ++ l') = vals heap l ++ vals heap l' := List.filterMap_append

section Updates

variable [DecidableEq A]

/-- `a->next = v`, which fails if `a` is not allocated. -/
def setNext (heap : Heap A V) (a : A) (v : Option A) : Option (Heap A V) :=
  (heap a).map fun n => Function.update heap a (some { n with next := v })

/-- `a->prev = v`, which fails if `a` is not allocated. -/
def setPrev (heap : Heap A V) (a : A) (v : Option A) : Option (Heap A V) :=
  (heap a).map fun n => Function.update heap a (some { n with prev := v })

/-- `if (x != NULL) x->next = v;` -/
def setNextIf (heap : Heap A V) (x v : Option A) : Option (Heap A V) :=
  match x with
  | none => some heap
  | some a => setNext heap a v

/-- `if (x != NULL) x->prev = v;` -/
def setPrevIf (heap : Heap A V) (x v : Option A) : Option (Heap A V) :=
  match x with
  | none => some heap
  | some a => setPrev heap a v

variable {heap heap' : Heap A V} {a : A} {v : Option A}

theorem setNext_eq_some (h : setNext heap a v = some heap') :
    ∃ n, heap a = some n ∧ heap' = Function.update heap a (some { n with next := v }) := by
  obtain ⟨n, hn, rfl⟩ := Option.map_eq_some_iff.mp h
  exact ⟨n, hn, rfl⟩

theorem setPrev_eq_some (h : setPrev heap a v = some heap') :
    ∃ n, heap a = some n ∧ heap' = Function.update heap a (some { n with prev := v }) := by
  obtain ⟨n, hn, rfl⟩ := Option.map_eq_some_iff.mp h
  exact ⟨n, hn, rfl⟩

theorem setNext_of_ne (h : setNext heap a v = some heap') {b : A} (hb : b ≠ a) :
    heap' b = heap b := by
  obtain ⟨n, -, rfl⟩ := setNext_eq_some h
  exact Function.update_of_ne hb _ _

theorem setPrev_of_ne (h : setPrev heap a v = some heap') {b : A} (hb : b ≠ a) :
    heap' b = heap b := by
  obtain ⟨n, -, rfl⟩ := setPrev_eq_some h
  exact Function.update_of_ne hb _ _

theorem setPrev_next (h : setPrev heap a v = some heap') (b : A) :
    (heap' b).map Node.next = (heap b).map Node.next := by
  by_cases hb : b = a
  · obtain ⟨n, hn, rfl⟩ := setPrev_eq_some h
    rw [hb, Function.update_self, hn]
    rfl
  · rw [setPrev_of_ne h hb]

/-- Links change, values do not. -/
theorem setNext_val (h : setNext heap a v = some heap') (b : A) :
    (heap' b).map Node.val = (heap b).map Node.val := by
  by_cases hb : b = a
  · obtain ⟨n, hn, rfl⟩ := setNext_eq_some h
    rw [hb, Function.update_self, hn]
    rfl
  · rw [setNext_of_ne h hb]

theorem setPrev_val (h : setPrev heap a v = some heap') (b : A) :
    (heap' b).map Node.val = (heap b).map Node.val := by
  by_cases hb : b = a
  · obtain ⟨n, hn, rfl⟩ := setPrev_eq_some h
    rw [hb, Function.update_self, hn]
    rfl
  · rw [setPrev_of_ne h hb]

/-- The next pointer of the last node of a segment is changed. -/
theorem Segment.setNext_last {p e : Option A} {l : List A} (h : Segment heap p (l ++ [a]) e)
    (hnodup : (l ++ [a]).Nodup) (hset : setNext heap a v = some heap') :
    Segment heap' p (l ++ [a]) v := by
  obtain ⟨hl, ⟨n, hn, hprev, -⟩, -⟩ := segment_append.mp h
  refine segment_append.mpr ⟨segment_congr (fun b hb => setNext_of_ne hset ?_) hl, ?_, trivial⟩
  · rintro rfl
    exact (List.nodup_append.mp hnodup).2.2 b hb b List.mem_cons_self rfl
  · obtain ⟨m, hm, rfl⟩ := setNext_eq_some hset
    obtain rfl : n = m := Option.some.inj (hn.symm.trans hm)
    exact ⟨_, Function.update_self .., hprev, rfl⟩

/-- The previous pointer of the first node of a segment is changed. -/
theorem Segment.setPrev_first {p e : Option A} {l : List A} (h : Segment heap p (a :: l) e)
    (hnodup : (a :: l).Nodup) (hset : setPrev heap a v = some heap') :
    Segment heap' v (a :: l) e := by
  obtain ⟨⟨n, hn, -, hnext⟩, hl⟩ := h
  obtain ⟨m, hm, rfl⟩ := setPrev_eq_some hset
  obtain rfl : n = m := Option.some.inj (hn.symm.trans hm)
  refine ⟨⟨_, Function.update_self .., rfl, hnext⟩, segment_congr (fun b hb => ?_) hl⟩
  refine Function.update_of_ne ?_ _ _
  rintro rfl
  exact (List.nodup_cons.mp hnodup).1 hb

theorem exists_setNext {n : Node A V} (hn : heap a = some n) (v : Option A) :
    ∃ heap', setNext heap a v = some heap' := ⟨_, by rw [setNext, hn, Option.map_some]⟩

theorem exists_setPrev {n : Node A V} (hn : heap a = some n) (v : Option A) :
    ∃ heap', setPrev heap a v = some heap' := ⟨_, by rw [setPrev, hn, Option.map_some]⟩

/-- The first node of what follows gets a new previous pointer. -/
theorem Segment.setPrevIf_first {p e : Option A} {l : List A} (h : Segment heap p l e)
    (hnodup : l.Nodup) (v : Option A) :
    ∃ heap', setPrevIf heap (firstOr l none) v = some heap' ∧ Segment heap' v l e ∧
      (∀ b ∉ l, heap' b = heap b) ∧ ∀ b, (heap' b).map Node.val = (heap b).map Node.val := by
  cases l with
  | nil => exact ⟨heap, rfl, trivial, fun _ _ => rfl, fun _ => rfl⟩
  | cons a l =>
    obtain ⟨⟨n, hn, -⟩, -⟩ := id h
    obtain ⟨heap', hset⟩ := exists_setPrev hn v
    refine ⟨heap', hset, h.setPrev_first hnodup hset, fun b hb => ?_, setPrev_val hset⟩
    exact setPrev_of_ne hset fun he => hb (he ▸ List.mem_cons_self)

/-- The last node of what comes before gets a new next pointer. -/
theorem Segment.setNextIf_last {p e : Option A} {l : List A} (h : Segment heap p l e)
    (hnodup : l.Nodup) (v : Option A) :
    ∃ heap', setNextIf heap (lastOr l none) v = some heap' ∧ Segment heap' p l v ∧
      (∀ b ∉ l, heap' b = heap b) ∧ ∀ b, (heap' b).map Node.val = (heap b).map Node.val := by
  rcases List.eq_nil_or_concat' l with rfl | ⟨l, a, rfl⟩
  · exact ⟨heap, rfl, trivial, fun _ _ => rfl, fun _ => rfl⟩
  · obtain ⟨n, hn⟩ := h.alloc (List.mem_append_right l List.mem_cons_self)
    obtain ⟨heap', hset⟩ := exists_setNext hn v
    rw [lastOr_concat]
    refine ⟨heap', hset, h.setNext_last hnodup hset, fun b hb => ?_, setNext_val hset⟩
    exact setNext_of_ne hset fun he => hb (he ▸ List.mem_append_right _ List.mem_cons_self)

/-- Taking a node out of a list: its neighbours are linked to each other, and
the node itself and everything outside the list stay as they are. -/
theorem Segment.unlink {pre post : List A} (h : Segment heap none (pre ++ a :: post) none)
    (hnodup : (pre ++ a :: post).Nodup) :
    ∃ n heap₁ heap₂, heap a = some n ∧ n.prev = lastOr pre none ∧ n.next = firstOr post none ∧
      setPrevIf heap n.next n.prev = some heap₁ ∧ setNextIf heap₁ n.prev n.next = some heap₂ ∧
      Segment heap₂ none (pre ++ post) none ∧ (∀ b ∉ pre ++ post, heap₂ b = heap b) ∧
      ∀ b, (heap₂ b).map Node.val = (heap b).map Node.val := by
  obtain ⟨hpre, ⟨n, hn, hprev, hnext⟩, hpost⟩ := segment_append.mp h
  obtain ⟨hnpre, hnapost, hdisj⟩ := List.nodup_append.mp hnodup
  have hnpost := (List.nodup_cons.mp hnapost).2
  have hapart : ∀ b ∈ pre, b ∉ post := fun b hb hp =>
    hdisj b hb b (List.mem_cons_of_mem _ hp) rfl
  obtain ⟨heap₁, hset₁, hseg₁, hframe₁, hval₁⟩ := hpost.setPrevIf_first hnpost (lastOr pre none)
  have hpre₁ : Segment heap₁ none pre (some a) :=
    segment_congr (fun b hb => hframe₁ b (hapart b hb)) hpre
  obtain ⟨heap₂, hset₂, hseg₂, hframe₂, hval₂⟩ := hpre₁.setNextIf_last hnpre (firstOr post none)
  refine ⟨n, heap₁, heap₂, hn, hprev, hnext, ?_, ?_, ?_, fun b hb => ?_, fun b => ?_⟩
  · rw [hprev, hnext, hset₁]
  · rw [hprev, hnext, hset₂]
  · refine segment_append.mpr ⟨hseg₂, segment_congr (fun b hb => hframe₂ b ?_) hseg₁⟩
    exact fun hp => hapart b hp hb
  · rw [List.mem_append, not_or] at hb
    rw [hframe₂ b hb.1, hframe₁ b hb.2]
  · rw [hval₂, hval₁]

/-- A node that points nowhere is linked to the end of a list; other nodes outside
the list are not touched. -/
theorem IsList.link_back {head tail : Option A} {l : List A} (h : IsList heap head tail l)
    {n : Node A V} (hn : heap a = some n) (hnext : n.next = none) (ha : a ∉ l) :
    ∃ heap₁ heap₂, setPrev heap a tail = some heap₁ ∧ setNextIf heap₁ tail (some a) = some heap₂ ∧
      IsList heap₂ (if tail = none then some a else head) (some a) (l ++ [a]) ∧
      (∀ b, b ∉ l → b ≠ a → heap₂ b = heap b) ∧
      ∀ b, (heap₂ b).map Node.val = (heap b).map Node.val := by
  obtain ⟨heap₁, hset₁⟩ := exists_setPrev hn tail
  have hne : ∀ b ∈ l, b ≠ a := fun b hb he => ha (he ▸ hb)
  have hseg₁ : Segment heap₁ none l none :=
    segment_congr (fun b hb => setPrev_of_ne hset₁ (hne b hb)) h.segment
  obtain ⟨heap₂, hset₂, hseg₂, hframe₂, hval₂⟩ := hseg₁.setNextIf_last h.nodup (some a)
  refine ⟨heap₁, heap₂, hset₁, h.tail_eq ▸ hset₂, ⟨?_, ?_, ?_, ?_⟩, fun b hb hba => ?_, fun b => ?_⟩
  · simp only [h.head_eq, h.tail_eq]
    cases l with
    | nil => exact if_pos rfl
    | cons a l => exact if_neg (lastOr_ne_none (List.cons_ne_nil a l) none)
  · exact (lastOr_concat l a none).symm
  · refine segment_append.mpr ⟨hseg₂, ⟨?_, trivial⟩⟩
    obtain ⟨m, hm, rfl⟩ := setPrev_eq_some hset₁
    obtain rfl : n = m := Option.some.inj (hn.symm.trans hm)
    refine ⟨{ n with prev := tail }, ?_, h.tail_eq, hnext⟩
    exact (hframe₂ a ha).trans (Function.update_self ..)
  · exact List.nodup_append.mpr ⟨h.nodup, List.nodup_singleton a,
      fun b hb c hc => List.mem_singleton.mp hc ▸ hne b hb⟩
  · exact (hframe₂ b hb).trans (setPrev_of_ne hset₁ hba)
  · exact (hval₂ b).trans (setPrev_val hset₁ b)

/-- A node is linked to the front of a list. -/
theorem IsList.link_front {head tail : Option A} {l : List A} (h : IsList heap head tail l)
    {n : Node A V} (hn : heap a = some n) (ha : a ∉ l) :
    ∃ heap₁ heap₂ heap₃, setPrev heap a none = some heap₁ ∧ setNext heap₁ a head = some heap₂ ∧
      setPrevIf heap₂ head (some a) = some heap₃ ∧
      IsList heap₃ (some a) (if head = none then some a else tail) (a :: l) ∧
      (∀ b, b ∉ l → b ≠ a → heap₃ b = heap b) ∧
      ∀ b, (heap₃ b).map Node.val = (heap b).map Node.val := by
  have hne : ∀ b ∈ l, b ≠ a := fun b hb he => ha (he ▸ hb)
  obtain ⟨heap₁, hset₁⟩ := exists_setPrev hn none
  obtain ⟨m, hm, hheap₁⟩ := setPrev_eq_some hset₁
  have hn₁ : heap₁ a = some { m with prev := none } := by rw [hheap₁, Function.update_self]
  obtain ⟨heap₂, hset₂⟩ := exists_setNext hn₁ head
  obtain ⟨m₂, hm₂, hheap₂⟩ := setNext_eq_some hset₂
  obtain rfl := Option.some.inj (hn₁.symm.trans hm₂)
  have hseg₂ : Segment heap₂ none l none := segment_congr (fun b hb =>
    (setNext_of_ne hset₂ (hne b hb)).trans (setPrev_of_ne hset₁ (hne b hb))) h.segment
  obtain ⟨heap₃, hset₃, hseg₃, hframe₃, hval₃⟩ := hseg₂.setPrevIf_first h.nodup (some a)
  refine ⟨heap₁, heap₂, heap₃, hset₁, hset₂, h.head_eq ▸ hset₃,
    ⟨rfl, ?_, ⟨?_, hseg₃⟩, List.nodup_cons.mpr ⟨ha, h.nodup⟩⟩, fun b hb hba => ?_, fun b => ?_⟩
  · simp only [h.head_eq, h.tail_eq]
    cases l with
    | nil => exact if_pos rfl
    | cons a l => rfl
  · refine ⟨⟨head, none, m.val⟩, (hframe₃ a ha).trans ?_, rfl, h.head_eq⟩
    rw [hheap₂, Function.update_self]
  · exact (hframe₃ b hb).trans ((setNext_of_ne hset₂ hba).trans (setPrev_of_ne hset₁ hba))
  · exact (hval₃ b).trans ((setNext_val hset₂ b).trans (setPrev_val hset₁ b))

/-- The same with the links set in the other order: first the one of the node
before, then the one of the node after. -/
theorem Segment.unlink_next {pre post : List A} (h : Segment heap none (pre ++ a :: post) none)
    (hnodup : (pre ++ a :: post).Nodup) :
    ∃ n heap₁ heap₂, heap a = some n ∧ n.prev = lastOr pre none ∧ n.next = firstOr post none ∧
      setNextIf heap n.prev n.next = some heap₁ ∧ heap₁ a = some n ∧
      setPrevIf heap₁ n.next n.prev = some heap₂ ∧
      Segment heap₂ none (pre ++ post) none ∧ (∀ b ∉ pre ++ post, heap₂ b = heap b) ∧
      ∀ b, (heap₂ b).map Node.val = (heap b).map Node.val := by
  obtain ⟨hpre, ⟨n, hn, hprev, hnext⟩, hpost⟩ := segment_append.mp h
  obtain ⟨hnpre, hnapost, hdisj⟩ := List.nodup_append.mp hnodup
  have hnpost := (List.nodup_cons.mp hnapost).2
  have hapart : ∀ b ∈ pre, b ∉ post := fun b hb hp =>
    hdisj b hb b (List.mem_cons_of_mem _ hp) rfl
  have ha : a ∉ pre := fun hp => hdisj a hp a List.mem_cons_self rfl
  obtain ⟨heap₁, hset₁, hseg₁, hframe₁, hval₁⟩ := hpre.setNextIf_last hnpre (firstOr post none)
  have hpost₁ : Segment heap₁ (some a) post none :=
    segment_congr (fun b hb => hframe₁ b fun hp => hapart b hp hb) hpost
  obtain ⟨heap₂, hset₂, hseg₂, hframe₂, hval₂⟩ := hpost₁.setPrevIf_first hnpost (lastOr pre none)
  refine ⟨n, heap₁, heap₂, hn, hprev, hnext, ?_, (hframe₁ a ha).trans hn, ?_, ?_, fun b hb => ?_,
    fun b => ?_⟩
  · rw [hprev, hnext, hset₁]
  · rw [hprev, hnext, hset₂]
  · exact segment_append.mpr
      ⟨segment_congr (fun b hb => hframe₂ b (hapart b hb)) hseg₁, hseg₂⟩
  · rw [List.mem_append, not_or] at hb
    rw [hframe₂ b hb.2, hframe₁ b hb.1]
  · rw [hval₂, hval₁]

end Updates

/-- The ends of a list after one of its nodes has been taken out. -/
theorem IsList.ends_unlink {heap : Heap A V} {a : A} {head tail : Option A}
    {pre post : List A} (h : IsList heap head tail (pre ++ a :: post)) :
    (if lastOr pre none = none then firstOr post none else head) = firstOr (pre ++ post) none ∧
      (if firstOr post none = none then lastOr pre none else tail) = lastOr (pre ++ post) none := by
  constructor
  · rw [h.head_eq]
    cases pre with
    | nil => exact if_pos rfl
    | cons a pre => exact if_neg (lastOr_ne_none (List.cons_ne_nil a pre) none)
  · rw [h.tail_eq, lastOr_append, lastOr_append]
    cases post with
    | nil => exact if_pos rfl
    | cons a post => rfl

/-- Two lists that start at the same node and follow the same next pointers are
the same list. -/
theorem Segment.unique {heap heap' : Heap A V} {p p' : Option A} {l l' : List A}
    (h : Segment heap p l none) (h' : Segment heap' p' l' none)
    (hfirst : firstOr l none = firstOr l' none)
    (hnext : ∀ b ∈ l, (heap' b).map Node.next = (heap b).map Node.next) : l' = l := by
  induction l generalizing p p' l' with
  | nil =>
    cases l' with
    | nil => rfl
    | cons b l' => cases hfirst
  | cons a l ih =>
    cases l' with
    | nil => cases hfirst
    | cons b l' =>
      obtain rfl := Option.some.inj hfirst
      obtain ⟨⟨n, hn, -, hl⟩, hrest⟩ := h
      obtain ⟨⟨n', hn', -, hl'⟩, hrest'⟩ := h'
      have he := hnext a List.mem_cons_self
      rw [hn, hn', Option.map_some, Option.map_some, hl, hl'] at he
      rw [ih hrest hrest' (Option.some.inj he).symm fun b hb => hnext b (List.mem_cons_of_mem _ hb)]

end Apue.DoublyLinked
