import Mathlib.Data.List.Nodup
import Mathlib.Logic.Function.Basic

/-!
Singly linked lists through pointer cells. A cell is named by its address and
holds the address of the next one, 0 at the end. The first pointer stands in a
cell of its own, so that the first element is removed like any other.
-/
namespace Apue.Pointers

/-- The pointer value `v` leads through the cells `l` to the value `b`. -/
def Path (ptr : ℕ → ℕ) : ℕ → List ℕ → ℕ → Prop
  | v, [], b => v = b
  | v, a :: l, b => v = a ∧ Path ptr (ptr a) l b

/-- The list that starts in the cell `c` has exactly the elements `l`. -/
def Linked (ptr : ℕ → ℕ) (c : ℕ) (l : List ℕ) : Prop := Path ptr (ptr c) l 0

/-- The cell that points behind `l` when the list starts in `c`. -/
def lastCell (c : ℕ) : List ℕ → ℕ
  | [] => c
  | a :: l => lastCell a l

theorem path_append {ptr : ℕ → ℕ} {v b : ℕ} {l l' : List ℕ} :
    Path ptr v (l ++ l') b ↔ ∃ m, Path ptr v l m ∧ Path ptr m l' b := by
  induction l generalizing v with
  | nil => simp [Path]
  | cons a l ih => simp only [List.cons_append, Path, ih, ← exists_and_left, and_assoc]

theorem path_middle {ptr : ℕ → ℕ} {v a b : ℕ} {pre post : List ℕ} :
    Path ptr v (pre ++ a :: post) b ↔ Path ptr v pre a ∧ Path ptr (ptr a) post b := by
  rw [path_append]
  constructor
  · rintro ⟨m, hpre, rfl, hpost⟩
    exact ⟨hpre, hpost⟩
  · rintro ⟨hpre, hpost⟩
    exact ⟨a, hpre, rfl, hpost⟩

theorem path_congr {ptr ptr' : ℕ → ℕ} {v b : ℕ} {l : List ℕ} (h : ∀ a ∈ l, ptr' a = ptr a)
    (hp : Path ptr v l b) : Path ptr' v l b := by
  induction l generalizing v with
  | nil => exact hp
  | cons a l ih =>
    obtain ⟨rfl, hrest⟩ := hp
    refine ⟨rfl, ?_⟩
    rw [h v List.mem_cons_self]
    exact ih (fun x hx => h x (List.mem_cons_of_mem _ hx)) hrest

theorem linked_congr {ptr ptr' : ℕ → ℕ} {c : ℕ} {l : List ℕ} (hc : ptr' c = ptr c)
    (h : ∀ a ∈ l, ptr' a = ptr a) (hp : Linked ptr c l) : Linked ptr' c l := by
  unfold Linked at *
  rw [hc]
  exact path_congr h hp

theorem lastCell_mem (c : ℕ) (l : List ℕ) : lastCell c l ∈ c :: l := by
  induction l generalizing c with
  | nil => exact List.mem_cons_self
  | cons a l ih => exact List.mem_cons_of_mem _ (ih a)

/-- Redirecting the last pointer of a path. -/
theorem path_redirect {ptr : ℕ → ℕ} {c b : ℕ} {l : List ℕ} (n : ℕ) (hnodup : (c :: l).Nodup)
    (hp : Path ptr (ptr c) l b) :
    Path (Function.update ptr (lastCell c l) n) (Function.update ptr (lastCell c l) n c) l n := by
  induction l generalizing c with
  | nil => simp only [lastCell, Function.update_self, Path]
  | cons a l ih =>
    obtain ⟨ha, hrest⟩ := hp
    have hc : c ≠ lastCell a l := by
      intro he
      exact (List.nodup_cons.mp hnodup).1 (he ▸ lastCell_mem a l)
    refine ⟨?_, ih (List.nodup_cons.mp hnodup).2 hrest⟩
    rw [lastCell, Function.update_of_ne hc, ha]

/-- The list without `a`, once the cell before `a` points to what follows it. -/
theorem linked_remove {ptr : ℕ → ℕ} {c a : ℕ} {pre post : List ℕ}
    (hnodup : (c :: (pre ++ a :: post)).Nodup) (hp : Linked ptr c (pre ++ a :: post)) :
    Linked (Function.update ptr (lastCell c pre) (ptr a)) c (pre ++ post) := by
  obtain ⟨hpre, hpost⟩ := path_middle.mp hp
  obtain ⟨hc, happ⟩ := List.nodup_cons.mp hnodup
  obtain ⟨hnpre, -, hdisj⟩ := List.nodup_append.mp happ
  refine path_append.mpr ⟨ptr a, path_redirect _ ?_ hpre, path_congr ?_ hpost⟩
  · exact List.nodup_cons.mpr ⟨fun h => hc (List.mem_append_left _ h), hnpre⟩
  · intro b hb
    refine Function.update_of_ne ?_ _ _
    rintro rfl
    rcases List.mem_cons.mp (lastCell_mem c pre) with he | hmem
    · exact hc (he ▸ List.mem_append_right _ (List.mem_cons_of_mem _ hb))
    · exact hdisj _ hmem _ (List.mem_cons_of_mem _ hb) rfl

/-- A new first element that points to the old one. -/
theorem linked_insert {ptr : ℕ → ℕ} {c a : ℕ} {l : List ℕ} (hca : c ≠ a) (hcl : c ∉ l)
    (ha : ptr a = ptr c) (hp : Linked ptr c l) :
    Linked (Function.update ptr c a) c (a :: l) := by
  unfold Linked
  rw [Function.update_self]
  refine ⟨rfl, ?_⟩
  rw [Function.update_of_ne hca.symm, ha]
  refine path_congr (fun b hb => Function.update_of_ne ?_ _ _) hp
  rintro rfl
  exact hcl hb

/-- Every element is the value of the pointer before it. -/
theorem path_mem_value {ptr : ℕ → ℕ} {v b : ℕ} {l : List ℕ} (hp : Path ptr v l b) {a : ℕ}
    (ha : a ∈ l) : a = v ∨ ∃ c, a = ptr c := by
  induction l generalizing v with
  | nil => exact absurd ha List.not_mem_nil
  | cons x l ih =>
    obtain ⟨rfl, hrest⟩ := hp
    rcases List.mem_cons.mp ha with rfl | ha
    · exact Or.inl rfl
    · rcases ih hrest ha with rfl | hc
      · exact Or.inr ⟨_, rfl⟩
      · exact Or.inr hc

end Apue.Pointers
