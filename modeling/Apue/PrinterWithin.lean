import Apue.PrinterReceived
import Apue.PrinterReply

/-!
When printer_status looks only at bytes it received. Each response has to be decided by the
data of its own first read: the status line, the name Content-Length and its value are in it,
and the search for the name finds a letter C before the end of the data. More data may come
only where the first read ends with the header, and then all of it at once.
-/
namespace Apue.Printer

open Programs Decimal Buffers Print

/-- A text as a buffer. -/
def ofText (text : List Byte) : Buffer Byte := ⟨text.length, fun p => text.getD p 0⟩

/-- The next read returns nothing. -/
def Silent (pieces : List (List Byte)) : Prop := pieces.headD [] = []

/-- The number of bytes that readmore asks for. -/
def asked (size off : ℕ) : ℕ := (if size ≤ off then size + IOBUFSZ else size) - off

/-- The search for Content-Length, place by place, over the next `left` bytes: what is behind
its value, and the value. -/
def fieldFrom (b : Buffer Byte) : ℕ → ℕ → Option (Buffer Byte × ℕ × ℤ)
  | 0, _ => none
  | left + 1, i => do
    let c ← b.get i
    if c ≠ 67 ∧ c ≠ 99 then fieldFrom b left (i + 1)
    else if ← b.agrees sameLetter i CONTENT_LENGTH then lengthField b i
    else fieldFrom b left (i + 1)

/-- The header ends at `j`, in the first `n` bytes. The body has its IPP header in these bytes,
or all of it is to come, and nothing more is to be read if it is not all there. -/
def BodyWithin (n j : ℕ) (len : ℤ) (pieces : List (List Byte)) : Prop :=
  if j < n then
    if (n : ℤ) - j < len then Silent pieces else j + 8 ≤ n
  else
    let more := connection (asked IOBUFSZ n) pieces
    more.1 ≠ [] →
      if (n + more.1.length : ℤ) < len then Silent more.2 else 8 ≤ more.1.length

/-- The value of the length ends at `i`. If this is the end of the data, no more may come. -/
def HeaderWithin (b : Buffer Byte) (i : ℕ) (len : ℤ) (pieces : List (List Byte)) : Prop :=
  if i < b.size then
    ∀ j, seekBlank b (b.size - 2 - i) i = some (true, j) → BodyWithin b.size j len pieces
  else Silent pieces

/-- The status line ends at `cp`. -/
def FieldWithin (b : Buffer Byte) (cp : ℕ) (pieces : List (List Byte)) : Prop :=
  ∃ b' i len, fieldFrom b (b.size - cp) cp = some (b', i, len) ∧ HeaderWithin b' i len pieces

/-- The responses in the pieces are each decided by what was received. -/
inductive Within : List (List Byte) → Prop
  | silent {pieces} : (connection IOBUFSZ pieces).1 = [] → Within pieces
  | noCode {pieces} : statusLine (ofText (connection IOBUFSZ pieces).1) = some none →
      0 ∈ (connection IOBUFSZ pieces).1 → Within (connection IOBUFSZ pieces).2 → Within pieces
  | info {pieces b cp code} :
      statusLine (ofText (connection IOBUFSZ pieces).1) = some (some (b, cp, code)) →
      httpInfo code = true → Within (connection IOBUFSZ pieces).2 → Within pieces
  | success {pieces b cp code} :
      statusLine (ofText (connection IOBUFSZ pieces).1) = some (some (b, cp, code)) →
      httpSuccess code = true → FieldWithin b cp (connection IOBUFSZ pieces).2 → Within pieces
  | error {pieces b cp code} :
      statusLine (ofText (connection IOBUFSZ pieces).1) = some (some (b, cp, code)) →
      httpInfo code = false → httpSuccess code = false → Within pieces

theorem received_write (bp : Buffer Byte) (text : List Byte) :
    received (bp.write 0 text) text.length = ofText text := by
  have hcell : (fun p => if p < text.length then (bp.write 0 text).cell p else 0) =
      fun p => text.getD p 0 := by
    funext p
    by_cases hp : p < text.length
    · rw [if_pos hp, List.getD_eq_getElem?_getD]
      simp [Buffer.write, hp]
    · rw [if_neg hp, List.getD_eq_getElem?_getD, List.getElem?_eq_none (not_lt.mp hp)]
      rfl
  exact congrArg (Buffer.mk text.length) hcell

theorem length_connection_le (nbytes : ℕ) (pieces : List (List Byte)) :
    (connection nbytes pieces).1.length ≤ nbytes := by
  cases pieces with
  | nil => exact Nat.zero_le _
  | cons piece pieces =>
    by_cases hfit : piece.length ≤ nbytes
    · rw [connection, if_pos hfit]
      exact hfit
    · rw [connection, if_neg hfit, List.length_take]
      exact Nat.min_le_left _ _

/-- Whether a read returns anything does not depend on what it asks for. -/
theorem connection_eq_nil {nbytes : ℕ} (hpos : 0 < nbytes) (pieces : List (List Byte)) :
    (connection nbytes pieces).1 = [] ↔ Silent pieces := by
  cases pieces with
  | nil => exact Iff.rfl
  | cons piece pieces =>
    by_cases hfit : piece.length ≤ nbytes
    · rw [connection, if_pos hfit]
      rfl
    · have hne : piece ≠ [] := by
        rintro rfl
        exact hfit (Nat.zero_le _)
      rw [connection, if_neg hfit]
      refine iff_of_false (fun h => ?_) hne
      have hlen := congrArg List.length h
      simp only [List.length_take, List.length_nil] at hlen
      omega

theorem asked_pos {size off : ℕ} (h : off ≤ size) : 0 < asked size off := by
  unfold asked
  split
  · have hbuf : 0 < IOBUFSZ := by decide
    omega
  · omega

theorem watchMore_eq {s : Watched} (hi : s.pos.i ≤ s.pos.bp.size) :
    ∃ bp : Buffer Byte, s.pos.bp.size ≤ bp.size ∧
      watchMore true s = Prog.call (S := sig) (asked s.pos.bp.size s.pos.i) fun data : List Byte =>
        if data = [] then .ret none
        else if s.held ≤ s.pos.i then
          .ret (some ⟨⟨bp.write s.pos.i data, s.pos.i, s.pos.datsz + (s.pos.i + data.length)⟩,
            s.held + data.length⟩)
        else .abort BEYOND := by
  have hsize : ∀ big, (if s.pos.bp.size ≤ s.pos.i then s.pos.bp.grow IOBUFSZ else s.pos.bp) = big →
      s.pos.i ≤ big.size ∧ s.pos.bp.size ≤ big.size ∧
        big.size - s.pos.i = asked s.pos.bp.size s.pos.i := by
    rintro big rfl
    unfold asked
    split
    · change s.pos.i ≤ s.pos.bp.size + IOBUFSZ ∧ s.pos.bp.size ≤ s.pos.bp.size + IOBUFSZ ∧ _
      exact ⟨by omega, by omega, rfl⟩
    · exact ⟨hi, le_refl _, rfl⟩
  unfold watchMore readmore
  generalize (if s.pos.bp.size ≤ s.pos.i then s.pos.bp.grow IOBUFSZ else s.pos.bp) = big at hsize
  obtain ⟨hoff, hgrown, hasked⟩ := hsize big rfl
  refine ⟨big, hgrown, ?_⟩
  simp only [if_neg (not_lt.mpr hoff), hasked]
  refine congrArg (Prog.call (S := sig) _) (funext fun data => ?_)
  change Prog.bind (if data = [] then _ else _) _ = _
  by_cases hdata : data = []
  · rw [if_pos hdata, if_pos hdata]
    rfl
  · rw [if_neg hdata, if_neg hdata]
    change Prog.bind (watch true (s.held ≤ s.pos.i)) _ = _
    by_cases hheld : s.held ≤ s.pos.i
    · rw [watch_of hheld, if_pos hheld]
      change Prog.ret _ = _
      rw [Nat.add_sub_cancel_left]
    · rw [watch_not hheld, if_neg hheld]
      rfl

/-- What stops printer_status itself is not what stops the watched one. -/
theorem access_ne :
    Outcome.aborted "access beyond the buffer" ≠ (.aborted BEYOND : Outcome Bool) := by
  decide

theorem ippStatus_ne (jobid : ℤ) (pos : Position) (pieces : List (List Byte)) :
    ((ippStatus jobid pos).run connection pieces).1 ≠ .aborted BEYOND := by
  unfold ippStatus
  cases ntoh pos.bp (pos.i + 2) 2 with
  | none => exact access_ne
  | some status =>
    cases ntoh pos.bp (pos.i + 4) 4 with
    | none => exact access_ne
    | some request =>
      rw [inBounds, Prog.ret_bind, inBounds, Prog.ret_bind]
      generalize int32 request = id
      by_cases hid : id ≠ jobid
      · rw [if_pos hid]
        rintro ⟨⟩
      · rw [if_neg hid]
        rintro ⟨⟩

/-- The end of printer_status, from the first byte of the body on. -/
theorem body_beyond_iff {jobid len : ℤ} {s : Watched} (hheld : s.pos.i < s.held)
    (hdatsz : s.held ≤ s.pos.datsz) (hi : s.pos.i ≤ s.pos.bp.size) (pieces : List (List Byte)) :
    ((orOut (watchBody true len s) (watchIpp true jobid)).run connection pieces).1 =
        .aborted BEYOND ↔
      ¬ if (s.pos.datsz : ℤ) - s.pos.i < len then Silent pieces else s.pos.i + 8 ≤ s.held := by
  unfold watchBody
  by_cases hless : (s.pos.datsz : ℤ) - s.pos.i < len
  · obtain ⟨bp, -, hmore⟩ := watchMore_eq hi
    rw [if_pos hless, if_pos hless, hmore, ← connection_eq_nil (asked_pos hi), orOut,
      Prog.run_bind, Prog.run]
    by_cases hnone : (connection (asked s.pos.bp.size s.pos.i) pieces).1 = []
    · rw [if_pos hnone]
      exact iff_of_false (by rintro ⟨⟩) (not_not.mpr hnone)
    · rw [if_neg hnone, if_neg (not_le.mpr hheld)]
      exact iff_of_true rfl hnone
  · rw [if_neg hless, if_neg hless]
    change ((watchIpp true jobid s).run connection pieces).1 = _ ↔ _
    have hseen := @ntoh_isSome (received s.pos.bp s.held) s.pos.i
    unfold watchIpp Watched.seen
    rw [Nat.min_eq_right hdatsz]
    by_cases hfits : s.pos.i + 8 ≤ s.held
    · rw [watch_of (hseen.mpr hfits)]
      exact iff_of_false (ippStatus_ne jobid s.pos pieces) (not_not.mpr hfits)
    · rw [watch_not fun h => hfits (hseen.mp h)]
      exact iff_of_true rfl hfits

theorem fieldFrom_eq {b : Buffer Byte} {left i : ℕ} (hleft : i + left = b.size) :
    fieldFrom b left i = (seekC b left i).bind fun j =>
      (b.agrees sameLetter j CONTENT_LENGTH).bind fun same =>
        if same = true then lengthField b j else fieldFrom b (b.size - (j + 1)) (j + 1) := by
  induction left generalizing i with
  | zero =>
    have hget : b.get i = none := if_neg (by omega)
    rw [fieldFrom, seekC, hget]
    rfl
  | succ left ih =>
    have hget : b.get i = some (b.cell i) := if_pos (by omega)
    rw [fieldFrom, seekC, hget]
    change (if b.cell i ≠ 67 ∧ b.cell i ≠ 99 then _ else _) =
      (if b.cell i ≠ 67 ∧ b.cell i ≠ 99 then _ else _ : Option ℕ).bind _
    by_cases hskip : b.cell i ≠ 67 ∧ b.cell i ≠ 99
    · rw [if_pos hskip, if_pos hskip]
      exact ih (by omega)
    · rw [if_neg hskip, if_neg hskip, Option.bind_some, show b.size - (i + 1) = left by omega]
      rfl

theorem watch_stop {β : Type} {c : Prop} [Decidable c] (h : ¬ c) (next : Unit → Prog sig β) :
    (watch true c >>= next) = .abort BEYOND := by
  rw [watch_not h]
  rfl

theorem watch_pass {α β : Type} {c : Prop} [Decidable c] {a : α} {o : Option α} (hc : c)
    (ho : o = some a) (next : α → Prog sig β) :
    (watch true c >>= fun _ => inBounds o >>= next) = next a := by
  rw [watch_of hc, ho]
  rfl

/-- The variables while datsz is right. -/
def start (bp : Buffer Byte) (i n : ℕ) : Watched := ⟨⟨bp, i, n⟩, n⟩

theorem start_seen (bp : Buffer Byte) (i n : ℕ) : (start bp i n).seen = received bp n := by
  rw [Watched.seen, start, Nat.min_self]

theorem start_refill {bp : Buffer Byte} {i n : ℕ} (h : i < n) :
    watchRefill true (start bp i n) = .ret (some (start bp i n)) := if_neg (not_le.mpr h)

/-- The comparison at the index is decided by the data. -/
theorem watchTake_cases (search : Watched → Prog sig (Option (Watched × ℤ))) {bp : Buffer Byte}
    {i n : ℕ} (hn : n ≤ bp.size) :
    ((received bp n).agrees sameLetter i CONTENT_LENGTH = none ∧
      watchTake true search (start bp i n) = .abort BEYOND) ∨
    ((received bp n).agrees sameLetter i CONTENT_LENGTH = some false ∧
      watchTake true search (start bp i n) = search (start bp (i + 1) n)) ∨
    ((received bp n).agrees sameLetter i CONTENT_LENGTH = some true ∧
      (lengthField (received bp n) i = none ∧
        watchTake true search (start bp i n) = .abort BEYOND ∨
      ∃ bp' i' len, lengthField (received bp n) i = some (received bp' n, i', len) ∧
        watchTake true search (start bp i n) = .ret (some (start bp' i' n, len)) ∧
        bp'.size = bp.size ∧ i' ≤ n)) := by
  rw [watchTake, start_seen]
  cases hagree : (received bp n).agrees sameLetter i CONTENT_LENGTH with
  | none =>
    refine .inl ⟨rfl, watch_stop ?_ _⟩
    change ¬ ((received bp n).agrees sameLetter i CONTENT_LENGTH).isSome = true
    rw [hagree]
    rintro ⟨⟩
  | some same =>
    have hhere : ((received bp n).agrees sameLetter (start bp i n).pos.i CONTENT_LENGTH).isSome =
        true := by
      change ((received bp n).agrees sameLetter i CONTENT_LENGTH).isSome = true
      rw [hagree]
      rfl
    have hwhole : (start bp i n).pos.bp.agrees sameLetter (start bp i n).pos.i CONTENT_LENGTH =
        some same := received_agrees hn hagree
    rw [watch_pass hhere hwhole]
    cases same with
    | false => exact .inr (.inl ⟨rfl, rfl⟩)
    | true =>
      refine .inr (.inr ⟨rfl, ?_⟩)
      cases hfield : lengthField (received bp n) i with
      | none =>
        refine .inl ⟨rfl, watch_stop ?_ _⟩
        rintro ⟨-, hsome⟩
        change (lengthField (received bp n) i).isSome = true at hsome
        rw [hfield] at hsome
        cases hsome
      | some field =>
        obtain ⟨b', i', len⟩ := field
        obtain ⟨bp', hwhole, rfl, hsize, hi'⟩ := received_lengthField hn hfield
        refine .inr ⟨bp', i', len, rfl, ?_, hsize, hi'⟩
        refine watch_pass (a := (bp', i', len)) ⟨rfl, ?_⟩ hwhole _
        change (lengthField (received bp n) i).isSome = true
        rw [hfield]
        rfl

/-- The search for Content-Length is decided by the data of the first read. -/
theorem watchLength_cases (fuel : ℕ) {bp : Buffer Byte} {i n : ℕ} (hn : n ≤ bp.size)
    (hi : i ≤ n) :
    (fuel ≤ n - i ∧ watchLength true fuel (start bp i n) = .diverge) ∨
    (fieldFrom (received bp n) (n - i) i = none ∧
      watchLength true fuel (start bp i n) = .abort BEYOND) ∨
    ∃ bp' i' len, fieldFrom (received bp n) (n - i) i = some (received bp' n, i', len) ∧
      watchLength true fuel (start bp i n) = .ret (some (start bp' i' n, len)) ∧
      bp'.size = bp.size ∧ i' ≤ n := by
  induction fuel generalizing i with
  | zero => exact .inl ⟨Nat.zero_le _, rfl⟩
  | succ fuel ih =>
    rw [fieldFrom_eq (show i + (n - i) = (received bp n).size from Nat.add_sub_cancel' hi),
      watchLength, start_seen]
    cases hseek : seekC (received bp n) (n - i) i with
    | none =>
      refine .inr (.inl ⟨rfl, watch_stop ?_ _⟩)
      rintro ⟨-, hsome⟩
      change (seekC (received bp n) (n - i) i).isSome = true at hsome
      rw [hseek] at hsome
      cases hsome
    | some j =>
      obtain ⟨hle, hlt⟩ := seekC_bounds hseek
      change j < n at hlt
      have hhere : (start bp i n).pos.datsz = (start bp i n).held ∧
          (seekC (received bp n) ((start bp i n).pos.datsz - (start bp i n).pos.i)
            (start bp i n).pos.i).isSome = true := by
        change n = n ∧ (seekC (received bp n) (n - i) i).isSome = true
        rw [hseek]
        exact ⟨rfl, rfl⟩
      have hwhole : seekC (start bp i n).pos.bp ((start bp i n).pos.datsz - (start bp i n).pos.i)
          (start bp i n).pos.i = some j := received_seekC hn hseek
      have hrefill : watchRefill true ⟨{ (start bp i n).pos with i := j }, (start bp i n).held⟩ =
          .ret (some (start bp j n)) := start_refill hlt
      rw [watch_pass hhere hwhole, hrefill, Prog.ret_bind, Option.bind_some]
      change _ ∧ watchTake true (watchLength true fuel) (start bp j n) = _ ∨
        _ ∧ watchTake true (watchLength true fuel) (start bp j n) = _ ∨
        ∃ _ _ _, _ ∧ watchTake true (watchLength true fuel) (start bp j n) = _ ∧ _
      rcases watchTake_cases (watchLength true fuel) (i := j) hn with
        ⟨hagree, htake⟩ | ⟨hagree, htake⟩ | ⟨hagree, htake⟩
      · rw [hagree, htake]
        exact .inr (.inl ⟨rfl, rfl⟩)
      · rw [hagree, htake]
        rcases ih (i := j + 1) (by omega) with ⟨hfuel, hdiv⟩ | hfound
        · exact .inl ⟨by omega, hdiv⟩
        · exact .inr hfound
      · rw [hagree]
        rcases htake with ⟨hfield, htake⟩ | ⟨bp', i', len, hfield, htake, hkeep⟩
        · exact .inr (.inl ⟨hfield, htake⟩)
        · exact .inr (.inr ⟨bp', i', len, hfield, htake, hkeep⟩)

theorem seekBlank_data {b : Buffer Byte} {left i : ℕ} (h : left = 0 ∨ i + left + 2 ≤ b.size) :
    ∃ r, seekBlank b left i = some r ∧ (r.1 = true → r.2 ≤ b.size) := by
  induction left generalizing i with
  | zero => exact ⟨(false, i), rfl, nofun⟩
  | succ left ih =>
    have hget : ∀ p, p < b.size → b.get p = some (b.cell p) := fun p hp => if_pos hp
    obtain ⟨same, hsame⟩ : ∃ same, b.agrees (fun a b => a == b) i [10, 13, 10] = some same := by
      simp only [Buffer.agrees, hget i (by omega), hget (i + 1) (by omega),
        hget (i + 1 + 1) (by omega), Option.bind_eq_bind, Option.bind_some]
      split
      · split
        · split
          · exact ⟨_, rfl⟩
          · exact ⟨_, rfl⟩
        · exact ⟨_, rfl⟩
      · exact ⟨_, rfl⟩
    rw [seekBlank, hsame]
    cases same with
    | true => exact ⟨(true, i + 3), rfl, fun _ => show i + 3 ≤ b.size by omega⟩
    | false =>
      exact ih (by omega)

/-- Once the search for the blank line has come to its stop it looks at nothing more. -/
theorem watchHeader_stops (fuel : ℕ) {bp : Buffer Byte} {i n : ℕ} (hi : i < n)
    (hend : n ≤ i + 2) : watchHeader true fuel (start bp i n) = .diverge := by
  induction fuel with
  | zero => rfl
  | succ fuel ih =>
    have hleft : (start bp i n).pos.datsz - 2 - (start bp i n).pos.i = 0 := by
      change n - 2 - i = 0
      omega
    rw [watchHeader, hleft]
    have hwhole : seekBlank (start bp i n).pos.bp 0 (start bp i n).pos.i = some (false, i) := rfl
    have hrefill : watchRefill true ⟨{ (start bp i n).pos with i := i }, (start bp i n).held⟩ =
        .ret (some (start bp i n)) := start_refill hi
    rw [watch_pass ⟨rfl, rfl⟩ hwhole, hrefill, Prog.ret_bind]
    exact ih

/-- The search for the blank line is decided by the data too: without one it does not end. -/
theorem watchHeader_cases (fuel : ℕ) {bp : Buffer Byte} {i n : ℕ} (hn : n ≤ bp.size)
    (hi : i < n) :
    ((∀ j, seekBlank (received bp n) (n - 2 - i) i ≠ some (true, j)) ∧
      watchHeader true (fuel + 1) (start bp i n) = .diverge) ∨
    ∃ j, seekBlank (received bp n) (n - 2 - i) i = some (true, j) ∧ j ≤ n ∧
      watchHeader true (fuel + 1) (start bp i n) = watchRefill true (start bp j n) := by
  obtain ⟨⟨found, j⟩, hseek, hj⟩ :=
    @seekBlank_data (received bp n) (n - 2 - i) i (by change _ ∨ _ ≤ n; omega)
  have hwhole : seekBlank (start bp i n).pos.bp ((start bp i n).pos.datsz - 2 -
      (start bp i n).pos.i) (start bp i n).pos.i = some (found, j) := received_seekBlank hn hseek
  have hhere : (start bp i n).pos.datsz = (start bp i n).held ∧ (seekBlank (received bp n)
      ((start bp i n).pos.datsz - 2 - (start bp i n).pos.i)
      (start bp i n).pos.i).isSome = true := by
    change n = n ∧ (seekBlank (received bp n) (n - 2 - i) i).isSome = true
    rw [hseek]
    exact ⟨rfl, rfl⟩
  rw [watchHeader, start_seen, watch_pass hhere hwhole, hseek]
  change _ ∧ (watchRefill true (start bp j n) >>= _) = _ ∨
    ∃ _, _ ∧ _ ∧ (watchRefill true (start bp j n) >>= _) = _
  cases found with
  | false =>
    obtain rfl := seekBlank_stop hseek
    refine .inl ⟨(fun _ he => by cases he), ?_⟩
    rw [start_refill (by omega)]
    exact watchHeader_stops fuel (by omega) (by omega)
  | true =>
    refine .inr ⟨j, rfl, hj rfl, ?_⟩
    refine Eq.trans (congrArg _ (funext fun r => ?_)) (Prog.bind_ret _)
    cases r <;> rfl

/-- At the end of the data more is asked for, and what comes in is counted twice. -/
theorem start_more {bp : Buffer Byte} {n : ℕ} (hn : n ≤ bp.size) (pieces : List (List Byte)) :
    ∃ big : Buffer Byte, n ≤ big.size ∧
      (watchRefill true (start bp n n)).run connection pieces =
        (.ok (if (connection (asked bp.size n) pieces).1 = [] then none
          else some ⟨⟨big, n, n + (n + (connection (asked bp.size n) pieces).1.length)⟩,
            n + (connection (asked bp.size n) pieces).1.length⟩),
          (connection (asked bp.size n) pieces).2) := by
  have hrefill : watchRefill true (start bp n n) = watchMore true (start bp n n) :=
    if_pos (le_refl n)
  obtain ⟨big, hbig, hmore⟩ := watchMore_eq (s := start bp n n) hn
  refine ⟨big.write n (connection (asked bp.size n) pieces).1, Nat.le_trans hn hbig, ?_⟩
  rw [hrefill, hmore, Prog.run]
  change (if (connection (asked bp.size n) pieces).1 = [] then _ else if n ≤ n then _ else _ :
    Prog sig _).run connection _ = _
  by_cases hnone : (connection (asked bp.size n) pieces).1 = []
  · rw [if_pos hnone, if_pos hnone]
    rfl
  · rw [if_neg hnone, if_neg hnone, if_pos (le_refl n)]
    rfl

/-- The search for the end of the header and what follows it, from where datsz is right. -/
theorem header_beyond_iff (fuel : ℕ) {jobid len : ℤ} {bp : Buffer Byte} {i n : ℕ}
    (hsize : bp.size = IOBUFSZ) (hn : n ≤ bp.size) (hi : i < n) (pieces : List (List Byte)) :
    ((orOut (watchHeader true (fuel + 1) (start bp i n)) fun s =>
        orOut (watchBody true len s) (watchIpp true jobid)).run connection pieces).1 =
        .aborted BEYOND ↔
      ¬ ∀ j, seekBlank (received bp n) (n - 2 - i) i = some (true, j) →
        BodyWithin n j len pieces := by
  rcases watchHeader_cases fuel hn hi with ⟨hnever, hheader⟩ | ⟨j, hseek, hj, hheader⟩
  · rw [hheader]
    exact iff_of_false (by rintro ⟨⟩) (not_not.mpr fun j h => absurd h (hnever j))
  · have honly : (∀ k, seekBlank (received bp n) (n - 2 - i) i = some (true, k) →
        BodyWithin n k len pieces) ↔ BodyWithin n j len pieces := by
      refine ⟨fun h => h j hseek, fun h k hk => ?_⟩
      obtain rfl := (Prod.mk.inj (Option.some.inj (hseek.symm.trans hk))).2
      exact h
    rw [honly, hheader]
    unfold BodyWithin
    by_cases hin : j < n
    · rw [start_refill hin, run_orOut rfl, if_pos hin]
      exact body_beyond_iff (s := start bp j n) hin (le_refl n) (Nat.le_trans hj hn) pieces
    · obtain rfl : j = n := Nat.le_antisymm hj (not_lt.mp hin)
      obtain ⟨big, hbig, hmore⟩ := start_more hn pieces
      rw [if_neg hin, ← hsize]
      by_cases hnone : (connection (asked bp.size j) pieces).1 = []
      · rw [if_pos hnone] at hmore
        rw [orOut, Prog.run_bind, hmore]
        exact iff_of_false (by rintro ⟨⟩) (not_not.mpr fun h => absurd hnone h)
      · rw [if_neg hnone] at hmore
        have hlen := List.length_pos_iff.mpr hnone
        rw [run_orOut hmore, body_beyond_iff (by simp only; omega) (by simp only; omega) hbig]
        refine not_congr (Iff.trans (iff_of_eq (if_congr ?_ rfl (propext ?_)))
          (imp_iff_right hnone).symm)
        · simp only
          omega
        · simp only
          omega

/-- What is done with a successful response. -/
theorem judge_beyond_iff {fuel : ℕ} {jobid : ℤ} {bp : Buffer Byte} {cp n : ℕ}
    (hsize : bp.size = IOBUFSZ) (hn : n ≤ bp.size) (hcp : cp < n) (pieces : List (List Byte)) :
    (fuel ≤ n ∧ ((watchJudge true fuel jobid (start bp cp n)).run connection pieces).1 =
        .diverged) ∨
      (((watchJudge true fuel jobid (start bp cp n)).run connection pieces).1 = .aborted BEYOND ↔
        ¬ FieldWithin (received bp n) cp pieces) := by
  unfold watchJudge
  cases fuel with
  | zero => exact .inl ⟨Nat.zero_le n, rfl⟩
  | succ fuel =>
    have hfield : ∀ r, fieldFrom (received bp n) (n - cp) cp = r →
        (FieldWithin (received bp n) cp pieces ↔
          ∃ b i len, r = some (b, i, len) ∧ HeaderWithin b i len pieces) := by
      rintro r rfl
      exact Iff.rfl
    rcases watchLength_cases (fuel + 1) hn hcp.le with ⟨hfuel, hlength⟩ |
      ⟨hnone, hlength⟩ | ⟨bp', i, len, hsome, hlength, hkeep, hi⟩
    · rw [hlength]
      exact .inl ⟨by omega, rfl⟩
    · rw [hlength, hfield _ hnone]
      exact .inr (iff_of_true rfl (by rintro ⟨_, _, _, he, -⟩; cases he))
    · have hbytes : FieldWithin (received bp n) cp pieces ↔
          HeaderWithin (received bp' n) i len pieces := by
        rw [hfield _ hsome]
        constructor
        · rintro ⟨b, i', len', heq, h⟩
          obtain ⟨rfl, hpair⟩ := Prod.mk.inj (Option.some.inj heq)
          obtain ⟨rfl, rfl⟩ := Prod.mk.inj hpair
          exact h
        · exact fun h => ⟨_, _, _, rfl, h⟩
      rw [hlength, hbytes, run_orOut rfl]
      refine .inr ?_
      unfold HeaderWithin
      by_cases hin : i < n
      · rw [start_refill hin, run_orOut rfl, if_pos (show i < (received bp' n).size from hin)]
        exact header_beyond_iff fuel (hkeep.trans hsize) (hkeep ▸ hn) hin pieces
      · obtain rfl : i = n := Nat.le_antisymm hi (not_lt.mp hin)
        have hn' : i ≤ bp'.size := hkeep ▸ hn
        have hsilent := connection_eq_nil (asked_pos hn') pieces
        obtain ⟨big, hbig, hmore⟩ := start_more hn' pieces
        rw [if_neg (show ¬ i < (received bp' i).size from hin), ← hsilent]
        by_cases hnone : (connection (asked bp'.size i) pieces).1 = []
        · rw [if_pos hnone] at hmore
          rw [orOut, Prog.run_bind, hmore]
          exact iff_of_false (by rintro ⟨⟩) (not_not.mpr hnone)
        · rw [if_neg hnone] at hmore
          rw [run_orOut hmore, orOut, watchHeader, watch_not fun h => by
            have hdatsz := h.1
            simp only at hdatsz
            omega]
          exact iff_of_true rfl hnone

end Apue.Printer
