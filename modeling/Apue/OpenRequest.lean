import Apue.Formats
import Apue.OpenClients
import Apue.Words
import Mathlib.Data.Int.Bitwise

/-!
Requests of the open server. A client sends the word open, the path name and the
flags as one text; the server breaks the text into words again, and answers with
a descriptor or with the message in errmsg, a buffer that all requests share.
What open returns is a parameter.
-/
namespace Apue.Open

open Decimal Formats Words

/-- The bytes of a string constant. -/
def bytesOf (s : String) : List Byte := s.toList.map fun c => UInt8.ofNat c.toNat

def CL_OPEN : List Byte := bytesOf "open"
def MAXARGC : ℕ := 50

/-- The characters of WHITE. -/
def isWhite (b : Byte) : Bool := b == 32 || b == 9 || b == 10

/-- The string that starts at the beginning of a buffer. -/
def cstr (buf : List Byte) : List Byte := buf.takeWhile fun b => b != 0

/-- The value of an int. -/
def int (v : ℤ) : ℤ := v.bmod (2 ^ 32)

def atoi (text : List Byte) : ℤ := int (atol text)

/-- What snprintf leaves in a buffer of `size` bytes, before the null. -/
def snprintf (size : ℕ) (text : List Byte) : List Byte := text.take (size - 1)

/-- The variables that the functions of the server share. -/
structure Globals where
  errmsg : List Byte
  pathname : List Byte
  oflag : ℤ

def Globals.initial : Globals := ⟨[], [], 0⟩

def usage : List Byte := bytesOf "usage: <pathname> <oflag>\n"

def cliArgs (argv : List (List Byte)) (g : Globals) : Bool × Globals :=
  match argv with
  | [command, name, flags] =>
    if command = CL_OPEN then (true, { g with pathname := name, oflag := atoi flags })
    else (false, { g with errmsg := usage })
  | _ => (false, { g with errmsg := usage })

/-- The loop of buf_args; `room` more arguments have a place in argv. -/
def argvLoop : ℕ → List (List Byte) → List Byte → Option (List (List Byte))
  | room, argv, text =>
    match strtok isWhite text with
    | none => some argv
    | some (ptr, rest) =>
      match room with
      | 0 => none
      | room + 1 => argvLoop room (argv ++ [ptr]) rest

/-- The first argument starts at the beginning of the buffer, and not at its
first word. -/
def bufArgs (buf : List Byte) (optfunc : List (List Byte) → Globals → Bool × Globals) (g : Globals) :
    Bool × Globals :=
  match strtok isWhite (cstr buf) with
  | none => (false, g)
  | some (word, rest) =>
    match argvLoop (MAXARGC - 2) [(cstr buf).takeWhile isWhite ++ word] rest with
    | none => (false, g)
    | some argv => optfunc argv g

inductive Reply
  | err (msg : List Byte)
  | fd (newfd : ℕ)
  deriving DecidableEq

/-- What handle_request does: the call of open it makes, if it comes to it, the answer
it sends, and what it then hands to log_msg for a format. -/
structure Handled where
  globals : Globals
  opened : Option (List Byte × ℤ)
  reply : Reply
  logged : Option (List Byte)

/-- The server comes back from log_msg. -/
def Handled.comesBack (r : Handled) : Bool := r.logged.all noConversion

/-- What open and strerror return; the latter is a string. -/
structure Files where
  openFile : List Byte → ℤ → Except ℕ ℕ
  strerror : ℕ → List Byte
  strerror_text : ∀ errno, 0 ∉ strerror errno

def notTerminated (buf : List Byte) (uid : ℕ) : List Byte :=
  snprintf (MAXLINE - 1) (bytesOf "request from uid " ++ decimalInt (int uid) ++
    bytesOf " not null terminated: " ++ padLeft buf.length (cstr buf) ++ bytesOf "\n")

def cantOpen (pathname reason : List Byte) : List Byte :=
  snprintf (MAXLINE - 1) (bytesOf "can't open " ++ pathname ++ bytesOf ": " ++ reason ++ bytesOf "\n")

def handleRequest (files : Files) (buf : List Byte) (uid : ℕ) (g : Globals) : Handled :=
  if buf.getLast? ≠ some 0 then
    let g := { g with errmsg := notTerminated buf uid }
    ⟨g, none, .err g.errmsg, none⟩
  else
    match bufArgs buf cliArgs g with
    | (false, g) => ⟨g, none, .err g.errmsg, some g.errmsg⟩
    | (true, g) =>
      match files.openFile g.pathname g.oflag with
      | .error errno =>
        let g := { g with errmsg := cantOpen g.pathname (files.strerror errno) }
        ⟨g, some (g.pathname, g.oflag), .err g.errmsg, some g.errmsg⟩
      | .ok newfd => ⟨g, some (g.pathname, g.oflag), .fd newfd, none⟩

/-- The text that csopen prints for the flags into its buffer, without the null. -/
def flagText (oflag : ℤ) : List Byte := 32 :: decimalInt oflag

/-- The size of that buffer. -/
def FLAGBUF : ℕ := 12

/-- The request that csopen sends. -/
def csopenRequest (name : List Byte) (oflag : ℤ) : List Byte :=
  CL_OPEN ++ [32] ++ name ++ (flagText oflag ++ [0])

/-- cli_args takes the name and the flags from a request, or sets the message. -/
theorem cliArgs_cases (argv : List (List Byte)) :
    (∃ name flags, name ∈ argv.tail ∧
      ∀ g, cliArgs argv g = (true, { g with pathname := name, oflag := flags })) ∨
      ∀ g, cliArgs argv g = (false, { g with errmsg := usage }) := by
  match argv with
  | [command, name, flags] =>
    by_cases hcommand : command = CL_OPEN
    · exact Or.inl ⟨name, atoi flags, List.mem_cons_self, fun g => if_pos hcommand⟩
    · exact Or.inr fun g => if_neg hcommand
  | [] => exact Or.inr fun _ => rfl
  | [_] => exact Or.inr fun _ => rfl
  | [_, _] => exact Or.inr fun _ => rfl
  | _ :: _ :: _ :: _ :: _ => exact Or.inr fun _ => rfl

/-- argv holds all words, or there are too many of them. -/
theorem argvLoop_eq (room : ℕ) (argv : List (List Byte)) (text : List Byte) :
    argvLoop room argv text =
      if (words isWhite text).length ≤ room then some (argv ++ words isWhite text) else none := by
  induction room generalizing argv text with
  | zero =>
    unfold argvLoop
    cases h : strtok isWhite text with
    | none => simp [words_of_strtok_none h]
    | some r => simp [words_of_strtok h]
  | succ room ih =>
    unfold argvLoop
    cases h : strtok isWhite text with
    | none => simp [words_of_strtok_none h]
    | some r => simp [words_of_strtok h, ih]

/-- The requests for which buf_args fails without calling cli_args: they have no
word, or more than fit into argv. -/
def Unparsed (buf : List Byte) : Prop :=
  words isWhite (cstr buf) = [] ∨ MAXARGC ≤ (words isWhite (cstr buf)).length

instance (buf : List Byte) : Decidable (Unparsed buf) :=
  inferInstanceAs (Decidable (_ ∨ _))

theorem bufArgs_unparsed {buf : List Byte} (h : Unparsed buf)
    (optfunc : List (List Byte) → Globals → Bool × Globals) (g : Globals) :
    bufArgs buf optfunc g = (false, g) := by
  unfold bufArgs
  cases ht : strtok isWhite (cstr buf) with
  | none => rfl
  | some r =>
    rcases h with h | h
    · rw [words_of_strtok ht] at h
      cases h
    · rw [words_of_strtok ht, List.length_cons, MAXARGC] at h
      have hmany : ¬ (words isWhite r.2).length ≤ MAXARGC - 2 := by
        rw [MAXARGC]
        omega
      simp only [argvLoop_eq, if_neg hmany]

theorem bufArgs_parsed {buf : List Byte} (h : ¬ Unparsed buf) :
    ∃ word rest, strtok isWhite (cstr buf) = some (word, rest) ∧ ∀ optfunc g,
      bufArgs buf optfunc g =
        optfunc (((cstr buf).takeWhile isWhite ++ word) :: words isWhite rest) g := by
  obtain ⟨hne, hfew⟩ := not_or.mp h
  cases ht : strtok isWhite (cstr buf) with
  | none => exact absurd (words_of_strtok_none ht) hne
  | some r =>
    rw [words_of_strtok ht, List.length_cons, MAXARGC] at hfew
    have hroom : (words isWhite r.2).length ≤ MAXARGC - 2 := by
      rw [MAXARGC]
      omega
    refine ⟨r.1, r.2, rfl, fun optfunc g => ?_⟩
    simp only [bufArgs, ht, argvLoop_eq, if_pos hroom]
    rfl

/-- What is handed to log_msg for a format: an earlier message, the usage or the message
about a file that could not be opened. -/
theorem logged_cases (files : Files) (buf : List Byte) (uid : ℕ) (g : Globals) {fmt : List Byte}
    (h : (handleRequest files buf uid g).logged = some fmt) : fmt = g.errmsg ∨ fmt = usage ∨
      ∃ name flags errno, files.openFile name flags = .error errno ∧
        fmt = cantOpen name (files.strerror errno) := by
  unfold handleRequest at h
  split at h
  · cases h
  · by_cases hparsed : Unparsed buf
    · rw [bufArgs_unparsed hparsed] at h
      exact .inl (Option.some.inj h).symm
    · obtain ⟨word, rest, -, hargs⟩ := bufArgs_parsed hparsed
      rw [hargs] at h
      rcases cliArgs_cases (((cstr buf).takeWhile isWhite ++ word) :: words isWhite rest) with
        ⟨name, flags, -, hok⟩ | hbad
      · rw [hok] at h
        cases hopen : files.openFile name flags with
        | ok newfd =>
          simp only [hopen] at h
          cases h
        | error errno =>
          simp only [hopen] at h
          exact .inr (.inr ⟨name, flags, errno, hopen, (Option.some.inj h).symm⟩)
      · rw [hbad] at h
        exact .inr (.inl (Option.some.inj h).symm)

/-- The server calls open with the given name and flags, or it does not call open
and answers with an error. -/
def OpensExactly (r : Handled) (name : List Byte) (oflag : ℤ) : Prop :=
  r.opened = some (name, oflag) ∨ r.opened = none ∧ ∃ msg, r.reply = .err msg

/-- A single word with white space around it. -/
def Padded (name : List Byte) : Prop :=
  ∃ pre w post, name = pre ++ w ++ post ∧ (∀ b ∈ pre, isWhite b = true) ∧
    (∀ b ∈ post, isWhite b = true) ∧ w ≠ [] ∧ (∀ b ∈ w, isWhite b = false) ∧
    (pre ≠ [] ∨ post ≠ [])

theorem isWhite_of_isDigit {b : Byte} (h : isDigit b = true) : isWhite b = false := by
  by_contra hw
  simp only [isWhite, Bool.not_eq_false, Bool.or_eq_true, beq_iff_eq] at hw
  rcases hw with (rfl | rfl) | rfl <;> revert h <;> decide

theorem mem_decimalInt {b : Byte} {v : ℤ} (h : b ∈ decimalInt v) : b = 45 ∨ isDigit b = true := by
  rw [decimalInt] at h
  split at h
  · rcases List.mem_cons.mp h with rfl | h
    · exact Or.inl rfl
    · exact Or.inr (decimal_digits _ b h)
  · exact Or.inr (decimal_digits _ b h)

theorem decimalInt_ne_nil (v : ℤ) : decimalInt v ≠ [] := by
  rw [decimalInt]
  split
  · exact List.cons_ne_nil _ _
  · exact decimal_ne_nil _

theorem words_flagText (name : List Byte) (oflag : ℤ) :
    words isWhite (name ++ flagText oflag) = words isWhite name ++ [decimalInt oflag] := by
  rw [flagText, words_append_cons name _ (by decide : isWhite 32 = true),
    words_of_word (decimalInt_ne_nil oflag) fun b hb => ?_]
  rcases mem_decimalInt hb with rfl | hdigit
  · decide
  · exact isWhite_of_isDigit hdigit

theorem cstr_csopenRequest {name : List Byte} (hname : 0 ∉ name) (oflag : ℤ) :
    cstr (csopenRequest name oflag) = CL_OPEN ++ 32 :: (name ++ flagText oflag) := by
  have hbody : ∀ b ∈ CL_OPEN ++ 32 :: (name ++ flagText oflag), (b != 0) = true := by
    intro b hb
    simp only [bne_iff_ne]
    rintro rfl
    simp only [List.mem_append, List.mem_cons, flagText] at hb
    rcases hb with hb | hb | hb | hb | hb
    · revert hb
      decide
    · revert hb
      decide
    · exact hname hb
    · revert hb
      decide
    · rcases mem_decimalInt hb with h | h <;> revert h <;> decide
  have hsplit : csopenRequest name oflag = CL_OPEN ++ 32 :: (name ++ flagText oflag) ++ [0] := by
    simp [csopenRequest]
  rw [cstr, hsplit, List.takeWhile_append_of_pos hbody]
  exact List.append_nil _

theorem strtok_command (rest : List Byte) :
    strtok isWhite (CL_OPEN ++ 32 :: rest) = some (CL_OPEN, rest) := rfl

theorem int_of_range {v : ℤ} (hv : -2 ^ 31 ≤ v ∧ v < 2 ^ 31) : int v = v :=
  Int.bmod_eq_of_le (by omega) (by omega)

/-- The server opens the only word of the name, and nothing if there are none or
several. -/
theorem handle_csopen (files : Files) (uid : ℕ) (g : Globals) {name : List Byte} {oflag : ℤ}
    (hname : 0 ∉ name) (hflag : -2 ^ 31 ≤ oflag ∧ oflag < 2 ^ 31) :
    (∀ w, words isWhite name = [w] →
      (handleRequest files (csopenRequest name oflag) uid g).opened = some (w, oflag)) ∧
    ((∀ w, words isWhite name ≠ [w]) →
      (handleRequest files (csopenRequest name oflag) uid g).opened = none ∧
      ∃ msg, (handleRequest files (csopenRequest name oflag) uid g).reply = .err msg) := by
  have hlast : ¬ (csopenRequest name oflag).getLast? ≠ some 0 := by
    rw [csopenRequest, ← List.append_assoc, List.getLast?_concat]
    exact not_not_intro rfl
  have hcstr := cstr_csopenRequest hname oflag
  have hwords : words isWhite (cstr (csopenRequest name oflag)) =
      CL_OPEN :: (words isWhite name ++ [decimalInt oflag]) := by
    rw [hcstr, words_of_strtok (strtok_command _), words_flagText]
  constructor
  · intro w hw
    have hparsed : ¬ Unparsed (csopenRequest name oflag) := by
      rw [Unparsed, hwords, hw, MAXARGC]
      rintro (hnil | hmany)
      · cases hnil
      · revert hmany
        exact Nat.not_le_of_gt (by decide : 3 < 50)
    obtain ⟨word, rest, ht, hargs⟩ := bufArgs_parsed hparsed
    rw [hcstr, strtok_command] at ht
    cases ht
    have hargs' : bufArgs (csopenRequest name oflag) cliArgs g =
        (true, { g with pathname := w, oflag := oflag }) := by
      rw [hargs, words_flagText, hw, hcstr]
      have hatoi : atoi (decimalInt oflag) = oflag := by
        rw [atoi, atol_decimalInt, int_of_range hflag]
      change cliArgs [CL_OPEN, w, decimalInt oflag] g = _
      rw [cliArgs, if_pos rfl, hatoi]
    simp only [handleRequest, if_neg hlast, hargs']
    split <;> rfl
  · intro hw
    have hfalse : ∃ g', bufArgs (csopenRequest name oflag) cliArgs g = (false, g') := by
      by_cases hparsed : Unparsed (csopenRequest name oflag)
      · exact ⟨g, bufArgs_unparsed hparsed cliArgs g⟩
      · obtain ⟨word, rest, ht, hargs⟩ := bufArgs_parsed hparsed
        rw [hcstr, strtok_command] at ht
        cases ht
        rw [hargs, words_flagText]
        cases hn : words isWhite name with
        | nil => exact ⟨_, rfl⟩
        | cons w ws =>
          cases ws with
          | nil => exact absurd hn (hw w)
          | cons w' ws => cases ws <;> exact ⟨_, rfl⟩
    obtain ⟨g', hargs⟩ := hfalse
    simp only [handleRequest, if_neg hlast, hargs]
    exact ⟨trivial, _, rfl⟩

/-- The flags fit into the buffer of csopen unless they are a negative number of
ten digits. -/
theorem flagText_fits_iff {oflag : ℤ} (hflag : -2 ^ 31 ≤ oflag ∧ oflag < 2 ^ 31) :
    (flagText oflag).length + 1 ≤ FLAGBUF ↔ -10 ^ 9 < oflag := by
  rw [flagText, List.length_cons, FLAGBUF, decimalInt]
  split
  · rename_i hneg
    rw [List.length_cons]
    constructor
    · intro hlen
      by_contra hsmall
      have hlt := lt_pow_length_decimal oflag.natAbs
      have hpow : 10 ^ (decimal oflag.natAbs).length ≤ 10 ^ 9 :=
        Nat.pow_le_pow_right (by decide) (by omega)
      omega
    · intro hlarge
      have := length_decimal_le 8 oflag.natAbs (by omega)
      omega
  · rename_i hpos
    constructor
    · intro _
      omega
    · intro _
      have := length_decimal_le 9 oflag.natAbs (by omega)
      omega

/-- For every name and all flags the server opens what csopen was asked for, or
answers with an error, and the flags fit into the buffer of csopen, if and only
if the flags are above -10^9 and the name is not a single word with white space
around it. -/
theorem csopen_exact_iff (files : Files) (uid : ℕ) (g : Globals) {name : List Byte} {oflag : ℤ}
    (hname : 0 ∉ name) (hflag : -2 ^ 31 ≤ oflag ∧ oflag < 2 ^ 31) :
    (OpensExactly (handleRequest files (csopenRequest name oflag) uid g) name oflag ∧
      (flagText oflag).length + 1 ≤ FLAGBUF) ↔ -10 ^ 9 < oflag ∧ ¬ Padded name := by
  obtain ⟨hone, hnone⟩ := handle_csopen files uid g hname hflag
  rw [flagText_fits_iff hflag, and_comm (a := -10 ^ 9 < oflag)]
  refine and_congr_left fun _ => ?_
  constructor
  · rintro hexact ⟨pre, w, post, rfl, hpre, hpost, hw, hword, hpad⟩
    have hwords : words isWhite (pre ++ w ++ post) = [w] := by
      rw [List.append_assoc, words_seps_append hpre]
      cases post with
      | nil => rw [List.append_nil, words_of_word hw hword]
      | cons b post =>
        rw [words_append_cons w post (hpost b List.mem_cons_self), words_of_word hw hword,
          words_of_seps fun c hc => hpost c (List.mem_cons_of_mem b hc)]
        rfl
    have hopened := hone w hwords
    rcases hexact with hexact | ⟨hexact, -⟩
    · have hself : w = pre ++ w ++ post :=
        (Prod.mk.inj (Option.some.inj (hopened.symm.trans hexact))).1
      have hlen := congrArg List.length hself
      rw [List.length_append, List.length_append] at hlen
      rcases hpad with hpad | hpad
      · have := List.length_pos_of_ne_nil hpad
        omega
      · have := List.length_pos_of_ne_nil hpad
        omega
    · cases hopened.symm.trans hexact
  · intro hpad
    by_cases hw : ∃ w, words isWhite name = [w]
    · obtain ⟨w, hw⟩ := hw
      obtain ⟨pre, post, hname', hpre, hpost, hne, hword⟩ := eq_of_words_singleton hw
      have hplain : pre = [] ∧ post = [] := by
        by_contra hnot
        refine hpad ⟨pre, w, post, hname', hpre, hpost, hne, hword, ?_⟩
        by_cases hpre' : pre = []
        · exact Or.inr fun hpost' => hnot ⟨hpre', hpost'⟩
        · exact Or.inl hpre'
      obtain ⟨rfl, rfl⟩ := hplain
      rw [List.nil_append, List.append_nil] at hname'
      subst hname'
      exact Or.inl (hone _ hw)
    · exact Or.inr (hnone fun w hw' => hw ⟨w, hw'⟩)

/-- Every file can be opened. -/
def allFiles : Files := ⟨fun _ _ => .ok 7, fun _ => [], fun _ => List.not_mem_nil⟩

/-- Where every file can be opened, no message has a conversion. -/
theorem comesBack_allFiles (buf : List Byte) (uid : ℕ) :
    (handleRequest allFiles buf uid .initial).comesBack = true := by
  unfold Handled.comesBack
  cases hlogged : (handleRequest allFiles buf uid .initial).logged with
  | none => rfl
  | some fmt =>
    rcases logged_cases allFiles buf uid .initial hlogged with rfl | rfl | ⟨_, _, _, hopen, -⟩
    · rfl
    · decide +kernel
    · cases hopen

theorem csopen_exact_passwd :
    OpensExactly (handleRequest allFiles (csopenRequest (bytesOf "/etc/passwd") 2) 0 .initial)
      (bytesOf "/etc/passwd") 2 := by
  refine ((csopen_exact_iff allFiles 0 .initial (by decide) (by decide)).mpr ⟨by decide, ?_⟩).1
  rintro ⟨pre, w, post, hname, hpre, hpost, -, -, hpad⟩
  have hplain : ∀ b ∈ bytesOf "/etc/passwd", isWhite b = false := by decide +kernel
  rw [hname] at hplain
  rcases hpad with hpad | hpad
  · obtain ⟨b, hb⟩ := List.exists_mem_of_ne_nil pre hpad
    cases (hpre b hb).symm.trans (hplain b (by simp [hb]))
  · obtain ⟨b, hb⟩ := List.exists_mem_of_ne_nil post hpad
    cases (hpost b hb).symm.trans (hplain b (by simp [hb]))

/-- The name ` a` is asked for and `a` is opened. -/
theorem csopen_other_file :
    ¬ ∀ files uid g name oflag, 0 ∉ name → -2 ^ 31 ≤ oflag ∧ oflag < 2 ^ 31 →
      (csopenRequest name oflag).length ≤ MAXLINE →
      OpensExactly (handleRequest files (csopenRequest name oflag) uid g) name oflag ∧
        (flagText oflag).length + 1 ≤ FLAGBUF := by
  intro hall
  rcases (hall allFiles 0 .initial (bytesOf " a") 0 (by decide) (by decide) (by decide)).1 with
    hopened | ⟨hopened, -⟩
  · revert hopened
    decide
  · revert hopened
    decide

/-- A request of some client, with the files it finds. -/
structure Submitted where
  files : Files
  buf : List Byte
  uid : ℕ

/-- The variables of the server after a sequence of requests. -/
def after (history : List Submitted) : Globals :=
  history.foldl (fun g r => (handleRequest r.files r.buf r.uid g).globals) .initial

/-- No message was logged that has a conversion. -/
def Harmless (history : List Submitted) : Prop :=
  ∀ earlier r later, history = earlier ++ r :: later →
    (handleRequest r.files r.buf r.uid (after earlier)).comesBack = true

/-- The server handles one more request, or it has ended. -/
def handleNext (g : Globals) (r : Submitted) : Option Globals :=
  let h := handleRequest r.files r.buf r.uid g
  if h.comesBack then some h.globals else none

/-- The variables of the server after a sequence of requests, if it is still there. -/
def running (history : List Submitted) : Option Globals := history.foldlM handleNext .initial

/-- The answer to a request, if there is one. -/
def replyAfter (history : List Submitted) (r : Submitted) : Option Reply :=
  (running history).map fun g => (handleRequest r.files r.buf r.uid g).reply

theorem after_concat (history : List Submitted) (r : Submitted) :
    after (history ++ [r]) = (handleRequest r.files r.buf r.uid (after history)).globals := by
  rw [after, List.foldl_append]
  rfl

theorem harmless_concat {history : List Submitted} {r : Submitted} :
    Harmless (history ++ [r]) ↔
      Harmless history ∧ (handleRequest r.files r.buf r.uid (after history)).comesBack = true := by
  refine ⟨fun h => ⟨fun earlier s later heq => ?_, h history r [] rfl⟩, fun h earlier s later heq => ?_⟩
  · exact h earlier s (later ++ [r]) (by rw [heq, List.append_assoc, List.cons_append])
  · rcases List.eq_nil_or_concat' later with rfl | ⟨later, last, rfl⟩
    · obtain ⟨rfl, hlast⟩ := List.append_inj' heq rfl
      obtain rfl := List.singleton_inj.mp hlast
      exact h.2
    · rw [← List.cons_append, ← List.append_assoc] at heq
      exact h.1 earlier s later (List.append_inj' heq rfl).1

/-- The server is there as long as nothing harmful was logged. -/
theorem running_eq_some {history : List Submitted} {g : Globals} :
    running history = some g ↔ Harmless history ∧ g = after history := by
  induction history using List.reverseRecOn generalizing g with
  | nil =>
    have hnone : Harmless [] := fun earlier r later h => by simp at h
    exact ⟨fun h => ⟨hnone, (Option.some.inj h).symm⟩, fun h => congrArg some h.2.symm⟩
  | append_singleton history r ih =>
    have hlast : running (history ++ [r]) = (running history).bind fun g => handleNext g r := by
      simp [running, List.foldlM_append]
    rw [hlast, Option.bind_eq_some_iff, harmless_concat, after_concat]
    unfold handleNext
    constructor
    · rintro ⟨g', hg', hnext⟩
      obtain ⟨hharmless, rfl⟩ := ih.mp hg'
      obtain ⟨hback, hg⟩ := Option.ite_none_right_eq_some.mp hnext
      exact ⟨⟨hharmless, hback⟩, (Option.some.inj hg).symm⟩
    · rintro ⟨⟨hharmless, hback⟩, rfl⟩
      exact ⟨after history, ih.mpr ⟨hharmless, rfl⟩, if_pos hback⟩

theorem replyAfter_eq_some {history : List Submitted} {r : Submitted} {reply : Reply} :
    replyAfter history r = some reply ↔
      Harmless history ∧ (handleRequest r.files r.buf r.uid (after history)).reply = reply := by
  rw [replyAfter, Option.map_eq_some_iff]
  constructor
  · rintro ⟨g, hg, hreply⟩
    obtain ⟨hharmless, rfl⟩ := running_eq_some.mp hg
    exact ⟨hharmless, hreply⟩
  · rintro ⟨hharmless, hreply⟩
    exact ⟨_, running_eq_some.mpr ⟨hharmless, rfl⟩, hreply⟩

/-- What is answered to a request that cli_args does not see is what is in errmsg. -/
theorem reply_unparsed {r : Submitted} (hlast : r.buf.getLast? = some 0) (h : Unparsed r.buf)
    (g : Globals) : (handleRequest r.files r.buf r.uid g).reply = .err g.errmsg := by
  rw [handleRequest, if_neg (not_not_intro hlast), bufArgs_unparsed h]

/-- The answer to any other request does not depend on the variables. -/
theorem reply_parsed {r : Submitted} (h : ¬ (r.buf.getLast? = some 0 ∧ Unparsed r.buf))
    (g g' : Globals) : (handleRequest r.files r.buf r.uid g).reply =
      (handleRequest r.files r.buf r.uid g').reply := by
  by_cases hlast : r.buf.getLast? = some 0
  · have hparsed : ¬ Unparsed r.buf := fun hunparsed => h ⟨hlast, hunparsed⟩
    obtain ⟨word, rest, -, hargs⟩ := bufArgs_parsed hparsed
    rcases cliArgs_cases (((cstr r.buf).takeWhile isWhite ++ word) :: words isWhite rest) with
      ⟨name, flags, -, hok⟩ | hbad
    · cases hopen : r.files.openFile name flags with
      | ok newfd => simp only [handleRequest, if_neg (not_not_intro hlast), hargs, hok, hopen]
      | error errno => simp only [handleRequest, if_neg (not_not_intro hlast), hargs, hok, hopen]
    · simp only [handleRequest, if_neg (not_not_intro hlast), hargs, hbad]
  · rw [handleRequest, if_pos hlast, handleRequest, if_pos hlast]

/-- A request gets the same answer after both histories. -/
def SameReply (history history' : List Submitted) (r : Submitted) : Prop :=
  ∃ reply, replyAfter history r = some reply ∧ replyAfter history' r = some reply

/-- The answer to a request does not depend on what the server handled before it, if and
only if nothing that has a conversion was logged, and the request is not terminated, or
buf_args comes to call cli_args, or the same message was left in errmsg. -/
theorem reply_independent_iff (history history' : List Submitted) (r : Submitted) :
    SameReply history history' r ↔ Harmless history ∧ Harmless history' ∧
      (¬ (r.buf.getLast? = some 0 ∧ Unparsed r.buf) ∨
        (after history).errmsg = (after history').errmsg) := by
  unfold SameReply
  simp only [replyAfter_eq_some]
  constructor
  · rintro ⟨reply, ⟨hharmless, hreply⟩, hharmless', hreply'⟩
    refine ⟨hharmless, hharmless', or_iff_not_imp_left.mpr fun h => ?_⟩
    obtain ⟨hlast, hunparsed⟩ := not_not.mp h
    rw [reply_unparsed hlast hunparsed] at hreply hreply'
    exact Reply.err.inj (hreply.trans hreply'.symm)
  · rintro ⟨hharmless, hharmless', h⟩
    refine ⟨_, ⟨hharmless, rfl⟩, hharmless', ?_⟩
    by_cases hparsed : r.buf.getLast? = some 0 ∧ Unparsed r.buf
    · rw [reply_unparsed hparsed.1 hparsed.2, reply_unparsed hparsed.1 hparsed.2]
      exact congrArg Reply.err (h.resolve_left (not_not_intro hparsed)).symm
    · exact reply_parsed hparsed _ _

/-- After a file of one user could not be opened, another user who sends white
space only is told its name. -/
theorem reply_leaks : ¬ ∀ history history' r, SameReply history history' r := by
  intro hall
  obtain ⟨reply, h, h'⟩ := hall []
    [⟨⟨fun _ _ => .error 2, fun _ => bytesOf "No such file or directory", fun _ => by decide⟩,
      csopenRequest (bytesOf "secret") 0, 10⟩] ⟨allFiles, bytesOf " " ++ [0], 20⟩
  have hsame := h.trans h'.symm
  revert hsame
  decide

/-- The message fits into errmsg, and it is a string. -/
def Globals.Clean (g : Globals) : Prop := 0 ∉ g.errmsg ∧ g.errmsg.length ≤ MAXLINE - 2

instance (g : Globals) : Decidable g.Clean := inferInstanceAs (Decidable (_ ∧ _))

theorem clean_snprintf {text : List Byte} (h : 0 ∉ text) :
    0 ∉ snprintf (MAXLINE - 1) text ∧ (snprintf (MAXLINE - 1) text).length ≤ MAXLINE - 2 :=
  ⟨fun hmem => h (List.mem_of_mem_take hmem), List.length_take_le _ _⟩

theorem not_mem_cstr (buf : List Byte) : 0 ∉ cstr buf := by
  intro hmem
  have := List.mem_takeWhile_imp hmem
  simp at this

theorem not_mem_decimalInt (v : ℤ) : 0 ∉ decimalInt v := by
  intro hmem
  rcases mem_decimalInt hmem with h | h <;> revert h <;> decide

/-- The message that handle_request sends is clean if the one before it was. -/
theorem clean_handleRequest (files : Files) (buf : List Byte) (uid : ℕ) {g : Globals} (h : g.Clean) :
    (handleRequest files buf uid g).globals.Clean ∧
      ∀ msg, (handleRequest files buf uid g).reply = .err msg →
        msg = (handleRequest files buf uid g).globals.errmsg := by
  by_cases hlast : buf.getLast? = some 0
  · have hif : ¬ buf.getLast? ≠ some 0 := not_not_intro hlast
    by_cases hparsed : Unparsed buf
    · simp only [handleRequest, if_neg hif, bufArgs_unparsed hparsed, Reply.err.injEq]
      exact ⟨h, fun msg hmsg => hmsg.symm⟩
    · obtain ⟨word, rest, ht, hargs⟩ := bufArgs_parsed hparsed
      have hwords : ∀ w ∈ words isWhite rest, 0 ∉ w := by
        intro w hw hmem
        have hw' : w ∈ words isWhite (cstr buf) := by
          rw [words_of_strtok ht]
          exact List.mem_cons_of_mem _ hw
        exact not_mem_cstr buf (mem_of_mem_words hw' hmem)
      rcases cliArgs_cases (((cstr buf).takeWhile isWhite ++ word) :: words isWhite rest) with
        ⟨name, flags, hmem, hok⟩ | hbad
      · have hname : 0 ∉ name := hwords name hmem
        cases hopen : files.openFile name flags with
        | ok newfd =>
          simp only [handleRequest, if_neg hif, hargs, hok, hopen]
          exact ⟨h, nofun⟩
        | error errno =>
          simp only [handleRequest, if_neg hif, hargs, hok, hopen, Reply.err.injEq]
          refine ⟨clean_snprintf ?_, fun msg hmsg => hmsg.symm⟩
          simp only [List.mem_append, not_or]
          exact ⟨⟨⟨⟨by decide, hname⟩, by decide⟩, files.strerror_text errno⟩, by decide⟩
      · simp only [handleRequest, if_neg hif, hargs, hbad, Reply.err.injEq]
        have husage : 0 ∉ usage ∧ usage.length ≤ MAXLINE - 2 := by decide
        exact ⟨husage, fun msg hmsg => hmsg.symm⟩
  · simp only [handleRequest, ne_eq, hlast, not_false_eq_true, if_pos, Reply.err.injEq]
    refine ⟨clean_snprintf ?_, fun msg hmsg => hmsg.symm⟩
    simp only [List.mem_append, not_or, padLeft, List.mem_replicate]
    exact ⟨⟨⟨⟨by decide, not_mem_decimalInt _⟩, by decide⟩, fun hpad => absurd hpad.2 (by decide),
      not_mem_cstr buf⟩, by decide⟩

end Apue.Open
