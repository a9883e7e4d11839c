import Apue.Words
import Apue.Decimal

/-!
The configuration file of the print programs (scan_configfile in printer/util.c). The file is
read in pieces of a fixed size, and from each piece sscanf takes two words of limited length.
When the lines fit into a piece, the value is the second word of the first line whose first
word is the keyword.
-/
namespace Apue.PrintConfig

open Words Decimal

def MAXCFGLINE : ℕ := 512

def MAXKWLEN : ℕ := 16

/-- What fgets takes from a file, if there is room for `n` bytes, and the rest of the file. -/
def fgets : ℕ → List Byte → List Byte × List Byte
  | 0, file => ([], file)
  | _ + 1, [] => ([], [])
  | n + 1, b :: file =>
    if b = 10 then ([b], file) else (b :: (fgets n file).1, (fgets n file).2)

/-- A conversion of sscanf to a string of at most `n` bytes, and the rest of the text. -/
def scanString (n : ℕ) (text : List Byte) : Option (List Byte × List Byte) :=
  let text := text.dropWhile isSpace
  let word := (text.takeWhile fun b => !isSpace b).take n
  if word = [] then none else some (word, text.drop word.length)

/-- sscanf with the pattern of scan_configfile: `keybuf` and `valbuf`, if both are converted.
The text of a piece ends at its first null byte. -/
def sscanf (line : List Byte) : Option (List Byte × List Byte) :=
  match scanString (MAXKWLEN - 1) (line.takeWhile fun b => b ≠ 0) with
  | none => none
  | some (keybuf, rest) =>
    match scanString (MAXCFGLINE - 1) rest with
    | none => none
    | some (valbuf, _) => some (keybuf, valbuf)

/-- The value in a piece. -/
def matched (keyword line : List Byte) : Option (List Byte) :=
  match sscanf line with
  | none => none
  | some (keybuf, valbuf) => if keyword = keybuf then some valbuf else none

/-- The loop of scan_configfile, for at most as many pieces as `fuel`. -/
def scanLoop (keyword : List Byte) : ℕ → List Byte → Option (List Byte)
  | 0, _ => none
  | fuel + 1, file =>
    if file = [] then none
    else
      match matched keyword (fgets (MAXCFGLINE - 1) file).1 with
      | some valbuf => some valbuf
      | none => scanLoop keyword fuel (fgets (MAXCFGLINE - 1) file).2

/-- A piece has at least one byte. -/
def scanConfigfile (keyword file : List Byte) : Option (List Byte) :=
  scanLoop keyword file.length file

def ascii (text : String) : List Byte := text.toList.map fun c => UInt8.ofNat c.toNat

def getPrintserver (file : List Byte) : Option (List Byte) :=
  scanConfigfile (ascii "printserver") file

/-- The name of the printer in get_printaddr. -/
def printerName (file : List Byte) : Option (List Byte) :=
  scanConfigfile (ascii "printer") file

def lines (file : List Byte) : List (List Byte) := file.splitOnP fun b => b == 10

/-- The value in a line. -/
def entry (keyword line : List Byte) : Option (List Byte) :=
  match words isSpace line with
  | key :: value :: _ => if keyword = key then some value else none
  | _ => none

/-- The value of a keyword. -/
def lookup (keyword file : List Byte) : Option (List Byte) := (lines file).findSome? (entry keyword)

section Pieces

variable {n : ℕ} {line file : List Byte}

/-- A line that fits is a piece. -/
theorem fgets_line (hline : (10 : Byte) ∉ line) (hfits : line.length < n) :
    fgets n (line ++ 10 :: file) = (line ++ [10], file) := by
  induction line generalizing n with
  | nil =>
    obtain ⟨m, rfl⟩ := Nat.exists_eq_succ_of_ne_zero (Nat.ne_of_gt hfits)
    rfl
  | cons b line ih =>
    obtain ⟨m, rfl⟩ := Nat.exists_eq_succ_of_ne_zero (Nat.ne_of_gt (Nat.zero_lt_of_lt hfits))
    have hb : b ≠ 10 := Ne.symm (List.ne_of_not_mem_cons hline)
    rw [List.cons_append, fgets, if_neg hb,
      ih (List.not_mem_of_not_mem_cons hline) (Nat.lt_of_succ_lt_succ hfits)]
    rfl

/-- The last line may have no newline. -/
theorem fgets_last (hline : (10 : Byte) ∉ line) (hfits : line.length < n) :
    fgets n line = (line, []) := by
  induction line generalizing n with
  | nil =>
    obtain ⟨m, rfl⟩ := Nat.exists_eq_succ_of_ne_zero (Nat.ne_of_gt hfits)
    rfl
  | cons b line ih =>
    obtain ⟨m, rfl⟩ := Nat.exists_eq_succ_of_ne_zero (Nat.ne_of_gt (Nat.zero_lt_of_lt hfits))
    have hb : b ≠ 10 := Ne.symm (List.ne_of_not_mem_cons hline)
    rw [fgets, if_neg hb, ih (List.not_mem_of_not_mem_cons hline) (Nat.lt_of_succ_lt_succ hfits)]

theorem scanString_none {text : List Byte} (h : strtok isSpace text = none) :
    scanString n text = none := by
  unfold strtok at h
  split at h
  case h_1 hnil =>
    unfold scanString
    simp [hnil]
  case h_2 => cases h

/-- A word is converted up to its first `n` bytes, and what is left begins with the others. -/
theorem scanString_word {text w rest : List Byte} (h : strtok isSpace text = some (w, rest))
    (hn : 0 < n) :
    ∃ tail, scanString n text = some (w.take n, w.drop n ++ tail) ∧
      words isSpace tail = words isSpace rest ∧ tail.length ≤ text.length := by
  obtain ⟨pre, tail, htext, hpre, hw, hword, hrest, htail⟩ := strtok_eq_some h
  have hdrop : text.dropWhile isSpace = w ++ tail := by
    rw [htext, List.append_assoc, List.dropWhile_append_of_pos hpre]
    cases w with
    | nil => exact absurd rfl hw
    | cons b w => exact List.dropWhile_cons_of_neg (by simp [hword b List.mem_cons_self])
  have htake : ((w ++ tail).takeWhile fun b => !isSpace b) = w := by
    rw [List.takeWhile_append_of_pos fun b hb => by simp [hword b hb]]
    cases tail with
    | nil => rw [List.takeWhile_nil, List.append_nil]
    | cons b tail => rw [List.takeWhile_cons_of_neg (by simp [htail b rfl]), List.append_nil]
  have hne : w.take n ≠ [] := fun hnil =>
    (List.take_eq_nil_iff.mp hnil).elim (Nat.ne_of_gt hn) hw
  have hsplit : w ++ tail = w.take n ++ (w.drop n ++ tail) := by
    rw [← List.append_assoc, List.take_append_drop]
  have hleft : (w ++ tail).drop (w.take n).length = w.drop n ++ tail :=
    (congrArg (List.drop (w.take n).length) hsplit).trans List.drop_left
  refine ⟨tail, ?_, ?_, ?_⟩
  · unfold scanString
    simp only [hdrop, htake, if_neg hne, hleft]
  · rw [hrest]
    cases tail with
    | nil => rfl
    | cons b tail => exact words_append_cons [] tail (htail b rfl)
  · rw [htext, List.length_append]
    exact Nat.le_add_left ..

/-- A word that fits is converted, and the words after it are left. -/
theorem scanString_fits {text w rest : List Byte} (h : strtok isSpace text = some (w, rest))
    (hn : 0 < n) (hfits : w.length ≤ n) :
    ∃ tail, scanString n text = some (w, tail) ∧ words isSpace tail = words isSpace rest ∧
      tail.length ≤ text.length := by
  obtain ⟨tail, hscan, htail⟩ := scanString_word h hn
  rw [List.take_of_length_le hfits, List.drop_of_length_le hfits, List.nil_append] at hscan
  exact ⟨tail, hscan, htail⟩

end Pieces

/-- A piece without null bytes that is a whole line has the value of the line. -/
theorem matched_eq {keyword line : List Byte} (hkey : keyword.length < MAXKWLEN - 1)
    (hnull : (0 : Byte) ∉ line) (hfits : line.length < MAXCFGLINE) :
    matched keyword line = entry keyword line := by
  have hcut : (line.takeWhile fun b => b ≠ 0) = line := by
    refine List.takeWhile_eq_self_iff.mpr fun b hb => ?_
    exact decide_eq_true fun hzero => hnull (hzero ▸ hb)
  unfold matched sscanf entry
  rw [hcut]
  cases hfirst : strtok isSpace line with
  | none => rw [scanString_none hfirst, words_of_strtok_none hfirst]
  | some first =>
    obtain ⟨key, rest⟩ := first
    rw [words_of_strtok hfirst]
    obtain ⟨pre, tail, hline, -⟩ := strtok_eq_some hfirst
    rcases Nat.lt_or_ge (MAXKWLEN - 1) key.length with hlong | hshort
    · obtain ⟨rest', hscan, -⟩ := scanString_word hfirst (n := MAXKWLEN - 1) (by decide)
      have hne' : keyword ≠ key.take (MAXKWLEN - 1) := fun heq => by
        rw [heq, List.length_take, Nat.min_eq_left (Nat.le_of_lt hlong)] at hkey
        exact Nat.lt_irrefl _ hkey
      have hne : keyword ≠ key := fun heq => by
        rw [heq] at hkey
        omega
      have hentry : (match key :: words isSpace rest with
          | key :: value :: _ => if keyword = key then some value else none
          | _ => none) = none := by
        cases words isSpace rest with
        | nil => rfl
        | cons value more => exact if_neg hne
      simp only [hscan]
      rw [hentry]
      cases scanString (MAXCFGLINE - 1) (key.drop (MAXKWLEN - 1) ++ rest') with
      | none => rfl
      | some second => exact if_neg hne'
    · obtain ⟨rest', hscan, hwords, hlen⟩ := scanString_fits hfirst (by decide) hshort
      simp only [hscan]
      rw [← hwords]
      cases hsecond : strtok isSpace rest' with
      | none => simp only [scanString_none hsecond, words_of_strtok_none hsecond]
      | some second =>
        obtain ⟨value, rest''⟩ := second
        have hvalue : value.length ≤ MAXCFGLINE - 1 := by
          obtain ⟨pre', tail', hrest, -⟩ := strtok_eq_some hsecond
          rw [hrest, List.length_append, List.length_append] at hlen
          omega
        obtain ⟨rest₃, hscan', -⟩ := scanString_fits hsecond (by decide) hvalue
        simp only [hscan', words_of_strtok hsecond]

/-- The newline at the end of a line does not count. -/
theorem entry_newline (keyword line : List Byte) :
    entry keyword (line ++ [10]) = entry keyword line := by
  have hwords : words isSpace (line ++ [10]) = words isSpace line := by
    rw [words_append_cons line [] (b := 10) rfl]
    exact List.append_nil _
  unfold entry
  rw [hwords]

theorem lines_append {line : List Byte} (hline : (10 : Byte) ∉ line) (file : List Byte) :
    lines (line ++ 10 :: file) = line :: lines file := by
  unfold lines
  rw [List.splitOnP_append_cons line file (by rfl), List.splitOnP_eq_singleton fun _ hb => ?_]
  · rfl
  · exact beq_eq_false_iff_ne.mpr fun heq => hline (heq ▸ hb)

theorem lines_last {line : List Byte} (hline : (10 : Byte) ∉ line) : lines line = [line] :=
  List.splitOnP_eq_singleton fun _ hb => beq_eq_false_iff_ne.mpr fun heq => hline (heq ▸ hb)

theorem scanLoop_eq {keyword : List Byte} (hkey : keyword.length < MAXKWLEN - 1) {fuel : ℕ}
    {file : List Byte} (hfuel : file.length ≤ fuel) (hnull : (0 : Byte) ∉ file)
    (hlines : ∀ line ∈ lines file, line.length < MAXCFGLINE - 1) :
    scanLoop keyword fuel file = lookup keyword file := by
  induction fuel generalizing file with
  | zero =>
    rw [List.eq_nil_of_length_eq_zero (Nat.le_zero.mp hfuel)]
    rfl
  | succ fuel ih =>
    unfold scanLoop
    by_cases hnil : file = []
    · rw [if_pos hnil, hnil]
      rfl
    rw [if_neg hnil]
    by_cases hmem : (10 : Byte) ∈ file
    · obtain ⟨line, rest, rfl, hline⟩ := List.eq_append_cons_of_mem hmem
      rw [lines_append hline] at hlines
      obtain ⟨hshort, hlines⟩ := List.forall_mem_cons.mp hlines
      have hnullLine : (0 : Byte) ∉ line ++ [10] := by
        intro hzero
        rcases List.mem_append.mp hzero with hzero | hzero
        · exact hnull (List.mem_append_left _ hzero)
        · exact absurd (List.mem_singleton.mp hzero) (by decide)
      have hnullRest : (0 : Byte) ∉ rest := fun hzero => hnull (by simp [hzero])
      have hlen : rest.length ≤ fuel := by
        rw [List.length_append, List.length_cons] at hfuel
        omega
      have hpiece : (line ++ [10]).length < MAXCFGLINE := by
        rw [List.length_append, List.length_singleton]
        unfold MAXCFGLINE at hshort ⊢
        omega
      rw [fgets_line hline hshort, matched_eq hkey hnullLine hpiece, entry_newline,
        ih hlen hnullRest hlines]
      unfold lookup
      rw [lines_append hline, List.findSome?_cons]
      cases entry keyword line <;> rfl
    · have hlast := lines_last hmem
      rw [hlast] at hlines
      have hshort := hlines file List.mem_cons_self
      rw [fgets_last hmem hshort, matched_eq hkey hnull (Nat.lt_of_lt_of_le hshort (Nat.sub_le ..))]
      unfold lookup
      rw [hlast, List.findSome?_cons]
      cases entry keyword file with
      | some value => rfl
      | none =>
        show scanLoop keyword fuel [] = none
        cases fuel <;> rfl

/-- For every file without null bytes whose lines fit into a piece, and every keyword that fits
into its buffer, scan_configfile finds the second word of the first line that has the keyword as
its first word and a second one, and nothing if there is no such line. -/
theorem config_found (keyword file : List Byte) (hkey : keyword.length < MAXKWLEN - 1)
    (hnull : (0 : Byte) ∉ file) (hlines : ∀ line ∈ lines file, line.length < MAXCFGLINE - 1) :
    scanConfigfile keyword file = lookup keyword file :=
  scanLoop_eq hkey (Nat.le_refl _) hnull hlines

/-- A comment and another keyword come first. -/
theorem config_found_printserver :
    getPrintserver (ascii "# hosts\nprinter lp\n printserver\tblade here\n") =
      some (ascii "blade") :=
  (config_found (ascii "printserver") (ascii "# hosts\nprinter lp\n printserver\tblade here\n")
    (by decide) (by decide) (by decide)).trans (by rfl)

end Apue.PrintConfig
