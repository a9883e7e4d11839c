import Mathlib.Data.List.Basic
import Mathlib.Data.List.TakeWhile

/-!
Words of a text: the maximal pieces without a separator. The function strtok
takes the next word off the front of a text, and calling it until there is none
left gives the words in order.
-/
namespace Apue.Words

variable {α : Type} {sep : α → Bool}

/-- The words of a text. -/
def words (sep : α → Bool) (text : List α) : List (List α) :=
  (text.splitOnP sep).filter fun w => !w.isEmpty

/-- The next word and the text after the separator that ends it. -/
def strtok (sep : α → Bool) (text : List α) : Option (List α × List α) :=
  match text.dropWhile sep with
  | [] => none
  | b :: rest =>
    some ((b :: rest).takeWhile fun c => !sep c, ((b :: rest).dropWhile fun c => !sep c).drop 1)

theorem words_append_cons (xs ys : List α) {b : α} (hb : sep b = true) :
    words sep (xs ++ b :: ys) = words sep xs ++ words sep ys := by
  rw [words, List.splitOnP_append_cons xs ys hb, List.filter_append, words, words]

theorem words_of_seps {text : List α} (h : ∀ b ∈ text, sep b = true) : words sep text = [] := by
  induction text with
  | nil => rfl
  | cons b text ih =>
    have hb := words_append_cons [] text (h b List.mem_cons_self)
    rw [List.nil_append] at hb
    rw [hb, ih fun c hc => h c (List.mem_cons_of_mem b hc)]
    rfl

theorem words_of_word {w : List α} (hw : w ≠ []) (h : ∀ b ∈ w, sep b = false) :
    words sep w = [w] := by
  rw [words, List.splitOnP_eq_singleton h]
  cases w with
  | nil => exact absurd rfl hw
  | cons b w => rfl

/-- Separators at the front do not matter. -/
theorem words_seps_append {pre : List α} (hpre : ∀ b ∈ pre, sep b = true) (text : List α) :
    words sep (pre ++ text) = words sep text := by
  induction pre with
  | nil => rfl
  | cons b pre ih =>
    have hb := words_append_cons [] (pre ++ text) (hpre b List.mem_cons_self)
    rw [List.nil_append] at hb
    rw [List.cons_append, hb, ih fun c hc => hpre c (List.mem_cons_of_mem b hc)]
    rfl

/-- The parts that strtok sees: separators, a word, and what follows it. -/
theorem strtok_eq_some {text w rest : List α} (h : strtok sep text = some (w, rest)) :
    ∃ pre tail, text = pre ++ w ++ tail ∧ (∀ b ∈ pre, sep b = true) ∧ w ≠ [] ∧
      (∀ b ∈ w, sep b = false) ∧ rest = tail.drop 1 ∧ (∀ b ∈ tail.head?, sep b = true) := by
  simp only [strtok] at h
  split at h
  · cases h
  · rename_i b body hbody
    cases h
    have hb : sep b = false := by
      have hne : text.dropWhile sep ≠ [] := hbody ▸ List.cons_ne_nil b body
      have hhead := List.head_dropWhile_not sep hne
      simpa [hbody] using hhead
    refine ⟨text.takeWhile sep, (b :: body).dropWhile fun c => !sep c, ?_, fun c hc => ?_, ?_,
      fun c hc => ?_, rfl, fun c hc => ?_⟩
    · rw [List.append_assoc, List.takeWhile_append_dropWhile, ← hbody,
        List.takeWhile_append_dropWhile]
    · exact List.mem_takeWhile_imp hc
    · rw [List.takeWhile_cons_of_pos (by simp [hb])]
      exact List.cons_ne_nil _ _
    · have := List.mem_takeWhile_imp hc
      simpa using this
    · have := List.head?_dropWhile_not (fun c => !sep c) (b :: body)
      cases hd : ((b :: body).dropWhile fun c => !sep c).head? with
      | none =>
        rw [hd] at hc
        cases hc
      | some c' =>
        rw [hd] at this hc
        obtain rfl := Option.some.inj hc
        simpa using this

theorem words_of_strtok_none {text : List α} (h : strtok sep text = none) :
    words sep text = [] := by
  simp only [strtok] at h
  split at h
  · rename_i hnil
    exact words_of_seps (List.dropWhile_eq_nil_iff.mp hnil)
  · cases h

theorem words_of_strtok {text w rest : List α} (h : strtok sep text = some (w, rest)) :
    words sep text = w :: words sep rest := by
  obtain ⟨pre, tail, rfl, hpre, hw, hword, rfl, htail⟩ := strtok_eq_some h
  rw [List.append_assoc, words_seps_append hpre]
  cases tail with
  | nil =>
    rw [List.append_nil, words_of_word hw hword]
    rfl
  | cons b tail =>
    rw [words_append_cons w tail (htail b rfl), words_of_word hw hword]
    rfl

/-- A text with exactly one word is the word with separators around it. -/
theorem eq_of_words_singleton {text w : List α} (h : words sep text = [w]) :
    ∃ pre post, text = pre ++ w ++ post ∧ (∀ b ∈ pre, sep b = true) ∧
      (∀ b ∈ post, sep b = true) ∧ w ≠ [] ∧ ∀ b ∈ w, sep b = false := by
  cases ht : strtok sep text with
  | none =>
    rw [words_of_strtok_none ht] at h
    cases h
  | some r =>
    obtain ⟨w', rest⟩ := r
    have hwords := (words_of_strtok ht).symm.trans h
    obtain ⟨rfl, hrest⟩ := List.cons.inj hwords
    obtain ⟨pre, tail, rfl, hpre, hw, hword, rfl, htail⟩ := strtok_eq_some ht
    refine ⟨pre, tail, rfl, hpre, ?_, hw, hword⟩
    have hseps : ∀ b ∈ tail.drop 1, sep b = true := by
      cases hr : strtok sep (tail.drop 1) with
      | none =>
        simp only [strtok] at hr
        split at hr
        · rename_i hnil
          exact List.dropWhile_eq_nil_iff.mp hnil
        · cases hr
      | some r =>
        rw [words_of_strtok hr] at hrest
        cases hrest
    cases tail with
    | nil => exact nofun
    | cons b tail =>
      intro c hc
      rcases List.mem_cons.mp hc with rfl | hc
      · exact htail c rfl
      · exact hseps c hc

/-- A word is part of the text. -/
theorem mem_of_mem_words {text w : List α} (hw : w ∈ words sep text) {b : α} (hb : b ∈ w) :
    b ∈ text := by
  induction hn : text.length using Nat.strong_induction_on generalizing text with
  | _ n ih =>
    cases ht : strtok sep text with
    | none =>
      rw [words_of_strtok_none ht] at hw
      cases hw
    | some r =>
      obtain ⟨w', rest⟩ := r
      rw [words_of_strtok ht] at hw
      obtain ⟨pre, tail, rfl, -, hne, -, rfl, -⟩ := strtok_eq_some ht
      rcases List.mem_cons.mp hw with rfl | hw
      · exact List.mem_append_left _ (List.mem_append_right _ hb)
      · have hpos := List.length_pos_of_ne_nil hne
        have hlt : (tail.drop 1).length < n := by
          rw [← hn, List.length_append, List.length_append, List.length_drop]
          omega
        exact List.mem_append_right _ (List.mem_of_mem_drop (ih _ hlt hw rfl))

end Apue.Words
