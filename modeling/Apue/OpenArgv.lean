import Apue.OpenRequest
import Apue.Strtok

/-!
The function buf_args with its memory: strtok puts nulls into the buffer, and the array
argv gets pointers into it. The first pointer is the one to the buffer, not the one that
strtok returns, so that white space in front of the first word becomes part of it.
-/
namespace Apue.Open

open Decimal Words Buffers

/-- What optfunc is called with. A pointer is an index into the buffer, or null. -/
structure ArgvCall where
  argc : ℕ
  argv : Buffer (Option ℕ)
  buf : Buffer Byte

/-- The loop, and the null at the end; `argc` is the index of the last argument. -/
def argvLoopAt (argc : ℕ) (argv : Buffer (Option ℕ)) (buf : Buffer Byte) (save : ℕ) :
    Option (Option ArgvCall) := do
  let (ptr, buf, save) ← strtokAt isWhite 0 buf save
  match ptr with
  | none => do
    let argv ← argv.set (argc + 1) none
    some (some ⟨argc + 1, argv, buf⟩)
  | some ptr =>
    if MAXARGC - 1 ≤ argc + 1 then some none
    else do
      let argv ← argv.set (argc + 1) (some ptr)
      argvLoopAt (argc + 1) argv buf save
termination_by MAXARGC - 1 - argc

/-- The call that buf_args makes, or none if it returns -1; `memory` is what the array argv
holds at first. -/
def bufArgsAt (memory : ℕ → Option ℕ) (buf : Buffer Byte) : Option (Option ArgvCall) := do
  let (ptr, buf, save) ← strtokAt isWhite 0 buf 0
  match ptr with
  | none => some none
  | some _ => do
    let argv ← (⟨MAXARGC, memory⟩ : Buffer (Option ℕ)).set 0 (some 0)
    argvLoopAt 0 argv buf save

/-- What buf_args returns, and the calls of optfunc that it makes. -/
def runBufArgs (optfunc : ArgvCall → ℤ) (memory : ℕ → Option ℕ) (buf : Buffer Byte) :
    Option (ℤ × List ArgvCall) :=
  (bufArgsAt memory buf).map fun
    | none => (-1, [])
    | some c => (optfunc c, [c])

/-- The strings are at the first pointers of argv, and end before `limit`. -/
def Args (buf : Buffer Byte) (argv : Buffer (Option ℕ)) (strs : List (List Byte)) (limit : ℕ) :
    Prop :=
  ∀ i str, strs[i]? = some str →
    ∃ p, argv.get i = some (some p) ∧ StringAt 0 buf p str ∧ p + str.length ≤ limit

/-- The arguments are these strings, with a null pointer behind them. -/
structure ArgvCall.Is (c : ArgvCall) (strs : List (List Byte)) : Prop where
  argc_eq : c.argc = strs.length
  string : ∀ i str, strs[i]? = some str → ∃ p, c.argv.get i = some (some p) ∧ StringAt 0 c.buf p str
  last : c.argv.get c.argc = some none

variable {buf buf' : Buffer Byte} {argv argv' : Buffer (Option ℕ)} {strs : List (List Byte)}

/-- The next word becomes the next argument. -/
theorem Args.taken {save next argc : ℕ} {pre w rest : List Byte} (h : Args buf argv strs save)
    (hlen : strs.length = argc) (ht : Taken 0 buf save pre w rest buf' next)
    (hget : argv'.get argc = some (some (save + pre.length)))
    (hsame : ∀ j, j ≠ argc → argv'.get j = argv.get j) : Args buf' argv' (strs ++ [w]) next := by
  intro i str hi
  have hword := ht.word_lt
  have hnext := ht.word_le
  by_cases hlast : i < strs.length
  · rw [List.getElem?_append_left hlast] at hi
    obtain ⟨p, hp, hstr, hlimit⟩ := h i str hi
    refine ⟨p, (hsame i (by omega)).trans hp, ⟨hstr.1.congr fun j _ hj => ht.same j ?_, hstr.2⟩, ?_⟩
    · rw [List.length_append, List.length_singleton] at hj
      omega
    · omega
  · rw [List.getElem?_append_right (Nat.le_of_not_lt hlast)] at hi
    obtain ⟨hzero, rfl⟩ : i - strs.length = 0 ∧ w = str := by
      rcases hsub : i - strs.length with _ | k
      · rw [hsub] at hi
        exact ⟨rfl, Option.some.inj hi⟩
      · rw [hsub] at hi
        cases hi
    obtain rfl : i = argc := by omega
    exact ⟨_, hget, ht.word, hnext⟩

theorem argvLoopAt_spec {argc save : ℕ} {text : List Byte} (hsize : argv.size = MAXARGC)
    (hlen : strs.length = argc + 1) (hfew : argc + 1 ≤ MAXARGC - 1) (hargs : Args buf argv strs save)
    (h : StringAt 0 buf save text) :
    if argc + 1 + (words isWhite text).length ≤ MAXARGC - 1 then
      ∃ c, argvLoopAt argc argv buf save = some (some c) ∧ c.Is (strs ++ words isWhite text)
    else argvLoopAt argc argv buf save = some none := by
  induction hn : (words isWhite text).length using Nat.strong_induction_on
    generalizing argc argv buf save strs text with
  | _ n ih =>
  have hplace : argc + 1 < argv.size := by
    rw [hsize]
    unfold MAXARGC at *
    omega
  rw [argvLoopAt]
  cases ht : strtok isWhite text with
  | none =>
    obtain ⟨argv', hset, -, hnull, hsame⟩ := Buffer.set_eq_some (v := none) hplace
    rw [words_of_strtok_none ht] at hn ⊢
    obtain rfl : 0 = n := hn
    rw [if_pos hfew, strtokAt_none h rfl ht]
    simp only [Option.bind_eq_bind, Option.bind_some, hset]
    refine ⟨_, rfl, ?_, fun i str hi => ?_, hnull⟩
    · rw [List.append_nil, hlen]
    · rw [List.append_nil] at hi
      obtain ⟨p, hp, hstr, -⟩ := hargs i str hi
      have hi' : i < strs.length := (List.getElem?_eq_some_iff.mp hi).1
      exact ⟨p, (hsame i (by omega)).trans hp, hstr⟩
  | some r =>
    obtain ⟨w, rest⟩ := r
    obtain ⟨pre, buf', next, -, hcall, htaken⟩ := strtokAt_some h rfl ht
    rw [words_of_strtok ht, List.length_cons] at hn
    rw [hcall, words_of_strtok ht]
    simp only [Option.bind_eq_bind, Option.bind_some]
    by_cases hfull : MAXARGC - 1 ≤ argc + 1
    · rw [if_pos hfull, if_neg (by omega)]
    · rw [if_neg hfull]
      obtain ⟨argv', hset, hsize', hget, hsame⟩ :=
        Buffer.set_eq_some (v := some (save + pre.length)) hplace
      have hlen' : (strs ++ [w]).length = argc + 1 + 1 := by
        rw [List.length_append, hlen, List.length_singleton]
      have hrest := ih _ (by omega) (hsize'.trans hsize) hlen' (by omega)
        (hargs.taken hlen htaken hget hsame) htaken.string rfl
      rw [List.append_assoc, List.singleton_append] at hrest
      rwa [hset, Option.bind_some, show argc + 1 + n = argc + 1 + 1 + (words isWhite rest).length by
        omega]

/-- The call that buf_args makes: the arguments are the words, with the white space in front
of the first one. -/
theorem bufArgsAt_spec (memory : ℕ → Option ℕ) {text : List Byte} (h : StringAt 0 buf 0 text) :
    match words isWhite text with
    | [] => bufArgsAt memory buf = some none
    | w :: ws =>
      if ws.length + 1 ≤ MAXARGC - 1 then
        ∃ c, bufArgsAt memory buf = some (some c) ∧ c.Is ((text.takeWhile isWhite ++ w) :: ws)
      else bufArgsAt memory buf = some none := by
  rw [bufArgsAt]
  cases ht : strtok isWhite text with
  | none =>
    rw [words_of_strtok_none ht, strtokAt_none h rfl ht]
    rfl
  | some r =>
    obtain ⟨w, rest⟩ := r
    obtain ⟨pre, buf', next, hpre, hcall, htaken⟩ := strtokAt_some h rfl ht
    obtain ⟨argv, hset, hsize, hget, -⟩ := Buffer.set_eq_some (b := ⟨MAXARGC, memory⟩) (i := 0)
      (v := some 0) (show 0 < MAXARGC by decide)
    have hword := htaken.word_lt
    have hnext := htaken.word_le
    have hfirst : StringAt 0 buf' 0 (pre ++ w) := by
      have hpretext : pre <+: text := hpre ▸ List.takeWhile_prefix isWhite
      have hholds : buf.Holds 0 pre := (Buffer.holds_append.mp h.1).1.of_begins hpretext
      refine ⟨?_, fun hmem => ?_⟩
      · rw [List.append_assoc]
        exact Buffer.holds_append.mpr ⟨hholds.congr fun j _ hj => htaken.same j (by omega),
          htaken.word.1⟩
      · rcases List.mem_append.mp hmem with hmem | hmem
        · exact h.2 (hpretext.subset hmem)
        · exact htaken.word.2 hmem
    have hargs : Args buf' argv [pre ++ w] next := by
      rintro (_ | i) str hi
      · obtain rfl := Option.some.inj hi
        refine ⟨0, hget, hfirst, ?_⟩
        rw [List.length_append]
        omega
      · cases hi
    have hloop := argvLoopAt_spec hsize rfl (by decide) hargs htaken.string
    rw [words_of_strtok ht, hcall]
    simp only [Option.bind_eq_bind, Option.bind_some, hset, hpre]
    rw [List.singleton_append] at hloop
    rwa [Nat.add_comm]

/-- The words become the arguments if there are from one to MAXARGC-1 of them, and otherwise
optfunc is not called. -/
def Tokenises (optfunc : ArgvCall → ℤ) (memory : ℕ → Option ℕ) (buf : Buffer Byte)
    (text : List Byte) : Prop :=
  if 1 ≤ (words isWhite text).length ∧ (words isWhite text).length ≤ MAXARGC - 1 then
    ∃ c, runBufArgs optfunc memory buf = some (optfunc c, [c]) ∧ c.Is (words isWhite text)
  else runBufArgs optfunc memory buf = some (-1, [])

/-- The first of the arguments. -/
theorem ArgvCall.Is.first {c : ArgvCall} {a b : List Byte} {as bs : List (List Byte)}
    (h : c.Is (a :: as)) (h' : c.Is (b :: bs)) : a = b := by
  obtain ⟨p, hp, hstr⟩ := h.string 0 a rfl
  obtain ⟨p', hp', hstr'⟩ := h'.string 0 b rfl
  obtain rfl := Option.some.inj (Option.some.inj (hp.symm.trans hp'))
  exact hstr.unique hstr'

theorem takeWhile_eq_nil_iff {text : List Byte} :
    text.takeWhile isWhite = [] ↔ ∀ b ∈ text.head?, isWhite b = false := by
  cases text with
  | nil => exact iff_of_true rfl nofun
  | cons b text => cases hb : isWhite b <;> simp [hb]

/-- With words that fit the arguments are right unless white space is in front of them. -/
theorem tokenises_words (optfunc : ArgvCall → ℤ) (memory : ℕ → Option ℕ) {buf : Buffer Byte}
    {text w : List Byte} {ws : List (List Byte)} (h : StringAt 0 buf 0 text)
    (hw : words isWhite text = w :: ws) (hfew : ws.length + 1 ≤ MAXARGC - 1) :
    Tokenises optfunc memory buf text ↔ ∀ b ∈ text.head?, isWhite b = false := by
  have hspec := bufArgsAt_spec memory h
  rw [hw] at hspec
  simp only [if_pos hfew] at hspec
  obtain ⟨c, hc, his⟩ := hspec
  rw [Tokenises, hw, List.length_cons, if_pos ⟨Nat.succ_pos _, hfew⟩, runBufArgs, hc,
    ← takeWhile_eq_nil_iff]
  constructor
  · rintro ⟨c', hcall, his'⟩
    obtain rfl : c = c' := (List.cons.inj (Prod.mk.inj (Option.some.inj hcall)).2).1
    have hfirst := his.first his'
    exact List.append_left_eq_self.mp hfirst
  · intro hnil
    rw [hnil, List.nil_append] at his
    exact ⟨c, rfl, his⟩

/-- buf_args tokenises a string correctly if and only if there is no white space in front of
the first word, or the number of words makes it fail. -/
theorem tokenises_iff (optfunc : ArgvCall → ℤ) (memory : ℕ → Option ℕ) {buf : Buffer Byte}
    {text : List Byte} (h : StringAt 0 buf 0 text) :
    Tokenises optfunc memory buf text ↔ (∀ b ∈ text.head?, isWhite b = false) ∨
      words isWhite text = [] ∨ MAXARGC ≤ (words isWhite text).length := by
  have hspec := bufArgsAt_spec memory h
  cases hw : words isWhite text with
  | nil =>
    rw [hw] at hspec
    refine iff_of_true ?_ (.inr (.inl rfl))
    rw [Tokenises, hw, if_neg (by decide), runBufArgs, hspec]
    rfl
  | cons w ws =>
    by_cases hfew : ws.length + 1 ≤ MAXARGC - 1
    · rw [tokenises_words optfunc memory h hw hfew]
      refine ⟨Or.inl, fun hor => hor.resolve_right ?_⟩
      rintro (hnil | hmany)
      · cases hnil
      · rw [List.length_cons] at hmany
        unfold MAXARGC at *
        omega
    · rw [hw] at hspec
      simp only [if_neg hfew] at hspec
      refine iff_of_true ?_ (.inr (.inr ?_))
      · rw [Tokenises, hw, List.length_cons, if_neg (fun hboth => hfew hboth.2), runBufArgs, hspec]
        rfl
      · rw [List.length_cons]
        unfold MAXARGC at *
        omega

/-- The buffer that holds a string and nothing else. -/
def stringBuffer (text : List Byte) : Buffer Byte :=
  (⟨text.length + 1, fun _ => 0⟩ : Buffer Byte).write 0 (text ++ [0])

theorem stringAt_stringBuffer {text : List Byte} (h : 0 ∉ text) :
    StringAt 0 (stringBuffer text) 0 text := by
  refine ⟨Buffer.write_holds ?_, h⟩
  rw [Nat.zero_add, List.length_append, List.length_singleton]

/-- A command with one argument. -/
theorem tokenises_plain : Tokenises (fun c => c.argc) (fun _ => none)
    (stringBuffer (bytesOf "ls a")) (bytesOf "ls a") := by
  refine (tokenises_iff (fun c => c.argc) (fun _ => none) (stringAt_stringBuffer (by decide))).mpr
    (.inl fun b hb => ?_)
  obtain rfl := Option.some.inj hb
  decide

/-- The same command with a blank in front of it. -/
theorem tokenises_not_blank : ¬ ∀ (optfunc : ArgvCall → ℤ) (memory : ℕ → Option ℕ)
    (buf : Buffer Byte) (text : List Byte), StringAt 0 buf 0 text →
    Tokenises optfunc memory buf text := by
  intro h
  have hstring := stringAt_stringBuffer (show 0 ∉ bytesOf " ls a" by decide)
  have hwords : words isWhite (bytesOf " ls a") = [bytesOf "ls", bytesOf "a"] := by decide
  have hblank := (tokenises_words (fun c => c.argc) (fun _ => none) hstring hwords
    (by decide)).mp (h _ _ _ _ hstring)
  exact absurd (hblank 32 rfl) (by decide)

/-- What buf_args does with the words is what it does with the memory. -/
theorem bufArgs_refines (memory : ℕ → Option ℕ) {b : Buffer Byte} {buf : List Byte}
    (h : StringAt 0 b 0 (cstr buf)) :
    (bufArgsAt memory b = some none ∧ ∀ optfunc g, bufArgs buf optfunc g = (false, g)) ∨
      ∃ c strs, bufArgsAt memory b = some (some c) ∧ c.Is strs ∧
        ∀ optfunc g, bufArgs buf optfunc g = optfunc strs g := by
  have hspec := bufArgsAt_spec memory h
  by_cases hparsed : Unparsed buf
  · refine .inl ⟨?_, bufArgs_unparsed hparsed⟩
    rcases hparsed with hnone | hmany
    · rwa [hnone] at hspec
    · cases hw : words isWhite (cstr buf) with
      | nil => rwa [hw] at hspec
      | cons w ws =>
        rw [hw, List.length_cons] at hmany
        have hfull : ¬ ws.length + 1 ≤ MAXARGC - 1 := by
          unfold MAXARGC at *
          omega
        rw [hw] at hspec
        simp only [if_neg hfull] at hspec
        exact hspec
  · obtain ⟨word, rest, ht, hcall⟩ := bufArgs_parsed hparsed
    have hw := words_of_strtok ht
    obtain ⟨-, hfew⟩ := not_or.mp hparsed
    have hroom : (words isWhite rest).length + 1 ≤ MAXARGC - 1 := by
      rw [hw, List.length_cons] at hfew
      unfold MAXARGC at *
      omega
    rw [hw] at hspec
    simp only [if_pos hroom] at hspec
    obtain ⟨c, hc, his⟩ := hspec
    exact .inr ⟨c, _, hc, his, hcall⟩

end Apue.Open
