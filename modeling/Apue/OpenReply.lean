import Apue.OpenClients
import Apue.TransferLoops
import Mathlib.Algebra.Order.Group.Nat

/-!
The protocol by which the open server answers: the text of an error, if there is
one, then a null byte and a status byte. A status that is not zero is an error
code; with status zero a descriptor travels along. The text is written in pieces
of any size, the two bytes are sent in one call, and the other side takes from
the stream whatever it finds there. The functions are send_fd, send_err, writen
and recv_fd.
-/
namespace Apue.Open

open Decimal Programs

/-- A byte of the stream, with a descriptor that travels with it. -/
abbrev Item := Byte × Option ℕ

inductive Call
  | write (bytes : List Byte)
  | sendmsg (bytes : List Byte) (fd : Option ℕ)
  | recvmsg
  | userfunc (buf : List Byte)

/-- `none` is an error. -/
def Call.Ret : Call → Type
  | write _ => Option ℕ
  | sendmsg _ _ => Option ℕ
  | recvmsg => Option (List Byte × Option ℕ)
  | userfunc _ => Option ℕ

abbrev sig : Signature := ⟨Call, Call.Ret⟩

def write (bytes : List Byte) : Prog sig (Option ℕ) := .call (.write bytes) .ret

def writen : List Byte → Prog sig ℤ := Transfers.writenWith write

/-- The status byte for an error code; it must not be zero. -/
def statusByte (fdToSend : ℤ) : Byte :=
  if UInt8.ofNat fdToSend.natAbs = 0 then 1 else UInt8.ofNat fdToSend.natAbs

def sendFd (fdToSend : ℤ) : Prog sig Bool :=
  if fdToSend < 0 then
    .call (.sendmsg [0, statusByte fdToSend] none) fun (n : Option ℕ) => .ret (n == some 2)
  else .call (.sendmsg [0, 0] (some fdToSend.toNat)) fun (n : Option ℕ) => .ret (n == some 2)

/-- The error code that send_err sends. -/
def negative (errcode : ℤ) : ℤ := if errcode ≥ 0 then -1 else errcode

def sendErr (errcode : ℤ) (msg : List Byte) : Prog sig Bool :=
  if msg.length > 0 then do
    let n ← writen msg
    if n ≠ msg.length then return false else sendFd (negative errcode)
  else sendFd (negative errcode)

/-- The loop of recv_fd through its buffer: the status byte, if the null is the
last byte but one. -/
def findStatus : List Byte → Except String (Option Byte)
  | [] => .ok none
  | b :: rest =>
    if b = 0 then
      match rest with
      | [status] => .ok (some status)
      | _ => .error "message format error"
    else findStatus rest

/-- The text goes to userfunc, which must take all of it. -/
def handOver (buf : List Byte) (next : Prog sig ℤ) : Prog sig ℤ :=
  if buf = [] then next
  else .call (.userfunc buf) fun (n : Option ℕ) => if n ≠ some buf.length then .ret (-1) else next

def recvLoop : ℕ → Prog sig ℤ
  | 0 => .diverge
  | fuel + 1 =>
    .call .recvmsg fun
      | none => .ret (-1)
      | some (buf, fd) =>
        if buf = [] then .ret (-1)
        else match findStatus buf with
          | .error msg => .abort msg
          | .ok none => handOver buf (recvLoop fuel)
          | .ok (some status) =>
            if status = 0 then
              match fd with
              | none => .abort "status = 0 but no fd"
              | some newfd => handOver (buf.take (buf.length - 2)) (.ret newfd)
            else handOver (buf.take (buf.length - 2)) (.ret (-status.toNat))

/-- The bytes of the stream that are not yet received, and those that userfunc
has been given. -/
structure Pipe where
  stream : List Item
  out : List Byte

/-- One call. A write takes `n` bytes; recvmsg waits until there is something,
and takes as much as fits into its buffer. -/
def perform (n : ℕ) : (c : Call) → Pipe → Option (c.Ret × Pipe)
  | .write bytes, p =>
    if 0 < n ∧ n ≤ bytes.length then
      some (some n, { p with stream := p.stream ++ (bytes.take n).map (·, none) })
    else none
  | .sendmsg bytes fd, p =>
    some (some bytes.length,
      { p with stream := p.stream ++ bytes.mapIdx fun i b => (b, if i = 0 then fd else none) })
  | .recvmsg, p =>
    if p.stream = [] then none
    else some (some ((p.stream.take MAXLINE).map Prod.fst,
      ((p.stream.take MAXLINE).filterMap Prod.snd).head?), { p with stream := p.stream.drop MAXLINE })
  | .userfunc buf, p => some (some buf.length, { p with out := p.out ++ buf })

/-- A text in the stream. -/
def plain (bytes : List Byte) : List Item := bytes.map (·, none)

/-- The two bytes at the end of an answer. -/
def marker (status : Byte) (fd : Option ℕ) : List Item := [(0, fd), (status, none)]

theorem plain_append (a b : List Byte) : plain (a ++ b) = plain a ++ plain b := List.map_append

theorem length_plain (a : List Byte) : (plain a).length = a.length := List.length_map _

theorem map_fst_plain (a : List Byte) : (plain a).map Prod.fst = a := by
  simp [plain, Function.comp_def]

theorem fds_plain (a : List Byte) : (plain a).filterMap Prod.snd = [] := by
  simp [plain, List.filterMap_map]

theorem plain_inj {a b : List Byte} (h : plain a = plain b) : a = b := by
  rw [← map_fst_plain a, h, map_fst_plain]

theorem take_plain (n : ℕ) (a : List Byte) : (plain a).take n = plain (a.take n) := List.map_take.symm

theorem drop_plain (n : ℕ) (a : List Byte) : (plain a).drop n = plain (a.drop n) := List.map_drop.symm

theorem sendmsg_items (status : Byte) (fd : Option ℕ) :
    ([0, status].mapIdx fun i b => (b, if i = 0 then fd else none)) = marker status fd := rfl

theorem findStatus_plain {text : List Byte} (h : 0 ∉ text) : findStatus text = .ok none := by
  induction text with
  | nil => rfl
  | cons b text ih =>
    have hb : b ≠ 0 := fun hb => h (hb ▸ List.mem_cons_self)
    unfold findStatus
    rw [if_neg hb]
    exact ih fun hmem => h (List.mem_cons_of_mem b hmem)

theorem findStatus_append {text : List Byte} (h : 0 ∉ text) (rest : List Byte) :
    findStatus (text ++ rest) = findStatus rest := by
  induction text with
  | nil => rfl
  | cons b text ih =>
    have hb : b ≠ 0 := fun hb => h (hb ▸ List.mem_cons_self)
    rw [List.cons_append]
    nth_rewrite 1 [findStatus.eq_def]
    simp only [if_neg hb]
    exact ih fun hmem => h (List.mem_cons_of_mem b hmem)

/-- An answer on its way: `left` is still to be written, the two bytes at the end
are in the stream if `marked`, `held` has been received and not yet been given to
userfunc, and `coming` is the rest of the text. -/
structure Transit (text : List Byte) (status : Byte) (fd : Option ℕ) (p : Pipe) (left : List Byte)
    (marked : Bool) (held coming : List Byte) : Prop where
  text_eq : text = p.out ++ held ++ coming
  stream_eq : p.stream ++ (plain left ++ if marked then [] else marker status fd) =
    plain coming ++ marker status fd
  last : marked = true → left = []

/-- What is still to be sent. -/
def unsent (left : List Byte) (marked : Bool) : ℕ := left.length + if marked then 0 else 2

/-- recvmsg is not called while the null is the last byte that fits into the
buffer. -/
def fits (p : Pipe) : Bool := (p.stream[MAXLINE - 1]?).all fun item => item.1 != 0

namespace Transit

variable {text : List Byte} {status : Byte} {fd : Option ℕ} {p : Pipe} {left held coming : List Byte}
  {marked : Bool}

theorem start (text : List Byte) (status : Byte) (fd : Option ℕ) (out : List Byte)
    (hout : out = []) : Transit text status fd ⟨[], out⟩ text false [] text :=
  ⟨by simp [hout], rfl, nofun⟩

theorem length_eq (h : Transit text status fd p left marked held coming) :
    p.stream.length + unsent left marked = coming.length + 2 := by
  have hlength := congrArg List.length h.stream_eq
  cases marked with
  | false => simpa [unsent, length_plain, marker] using hlength
  | true => simpa [unsent, length_plain, marker] using hlength

/-- Some of the text is written. -/
theorem write (h : Transit text status fd p left marked held coming) (n : ℕ)
    (hleft : left ≠ []) :
    Transit text status fd { p with stream := p.stream ++ plain (left.take n) } (left.drop n) marked
      held coming := by
  refine ⟨h.text_eq, ?_, fun hm => absurd (h.last hm) hleft⟩
  rw [List.append_assoc, ← List.append_assoc (plain (left.take n)), ← plain_append,
    List.take_append_drop]
  exact h.stream_eq

/-- The two bytes are sent. -/
theorem mark (h : Transit text status fd p [] false held coming) :
    Transit text status fd { p with stream := p.stream ++ marker status fd } [] true held coming := by
  refine ⟨h.text_eq, ?_, fun _ => rfl⟩
  have hstream := h.stream_eq
  rw [if_neg Bool.false_ne_true, plain, List.map_nil, List.nil_append] at hstream
  rw [if_pos rfl, plain, List.map_nil, List.nil_append, List.append_nil]
  exact hstream

/-- What was received goes to userfunc. -/
theorem userfunc (h : Transit text status fd p left marked held coming) :
    Transit text status fd { p with out := p.out ++ held } left marked [] coming :=
  ⟨by rw [List.append_nil]; exact h.text_eq, h.stream_eq, h.last⟩

/-- A piece of the stream that is received is text, or it is the end of the answer. -/
theorem recv (h : Transit text status fd p left marked [] coming) (hs : p.stream ≠ [])
    (hfits : fits p = true) :
    (∃ piece rest, piece ≠ [] ∧ coming = piece ++ rest ∧ p.stream.take MAXLINE = plain piece ∧
      Transit text status fd { p with stream := p.stream.drop MAXLINE } left marked piece rest) ∨
    (marked = true ∧ p.stream.take MAXLINE = plain coming ++ marker status fd ∧
      p.stream.drop MAXLINE = []) := by
  have htext := h.text_eq
  rw [List.append_nil] at htext
  -- a piece of plain text at the front of the stream
  have hpiece : ∀ s : List Byte, s ≠ [] → p.stream.take MAXLINE = plain s → s <+: coming →
      p.stream.drop MAXLINE ++ (plain left ++ if marked then [] else marker status fd) =
        plain (coming.drop s.length) ++ marker status fd →
      ∃ piece rest, piece ≠ [] ∧ coming = piece ++ rest ∧ p.stream.take MAXLINE = plain piece ∧
        Transit text status fd { p with stream := p.stream.drop MAXLINE } left marked piece rest := by
    rintro s hne htake ⟨rest, rfl⟩ hdrop
    rw [List.drop_left] at hdrop
    exact ⟨s, rest, hne, rfl, htake, by rw [htext, List.append_assoc], hdrop, h.last⟩
  cases marked with
  | false =>
    have hstream : p.stream ++ plain left = plain coming := by
      have := h.stream_eq
      rw [if_neg Bool.false_ne_true, ← List.append_assoc] at this
      exact List.append_cancel_right this
    obtain ⟨s, rest, rfl, hs', hrest⟩ := List.append_eq_map_iff.mp hstream
    obtain rfl := (plain_inj hrest).symm
    have htake : p.stream.take MAXLINE = plain (s.take MAXLINE) := by
      rw [← hs']
      exact take_plain MAXLINE s
    refine Or.inl (hpiece (s.take MAXLINE) ?_ htake ?_ ?_)
    · intro hnil
      have : p.stream.take MAXLINE = [] := by rw [htake, hnil]; rfl
      rcases List.take_eq_nil_iff.mp this with h0 | h0
      · exact absurd h0 (by decide)
      · exact hs h0
    · exact (List.take_prefix MAXLINE s).trans (List.prefix_append s left)
    · rw [if_neg Bool.false_ne_true, ← List.append_assoc, ← hs']
      have hsplit : (s ++ left).drop (s.take MAXLINE).length = s.drop MAXLINE ++ left := by
        have hcut : s ++ left = s.take MAXLINE ++ (s.drop MAXLINE ++ left) := by
          rw [← List.append_assoc, List.take_append_drop]
        nth_rewrite 1 [hcut]
        exact List.drop_left
      rw [hsplit, plain_append, ← drop_plain]
      rfl
  | true =>
    obtain rfl := h.last rfl
    have hstream : p.stream = plain coming ++ marker status fd := by
      have := h.stream_eq
      rwa [if_pos rfl, plain, List.map_nil, List.nil_append, List.append_nil] at this
    rcases Nat.lt_trichotomy (coming.length + 1) MAXLINE with hlt | heq | hgt
    · refine Or.inr ⟨rfl, ?_, ?_⟩
      · rw [hstream, List.take_of_length_le]
        rw [List.length_append, length_plain]
        exact hlt
      · rw [hstream, List.drop_eq_nil_iff, List.length_append, length_plain]
        exact hlt
    · -- the buffer ends between the null and the status
      have hnull : p.stream[MAXLINE - 1]? = some (0, fd) := by
        rw [hstream, ← heq, Nat.add_sub_cancel, List.getElem?_append_right (length_plain coming).le,
          length_plain, Nat.sub_self]
        rfl
      rw [fits, hnull] at hfits
      cases hfits
    · have hlen : MAXLINE ≤ (plain coming).length := by
        rw [length_plain]
        exact Nat.le_of_lt_succ hgt
      have htake : p.stream.take MAXLINE = plain (coming.take MAXLINE) := by
        rw [hstream, List.take_append_of_le_length hlen, take_plain]
      refine Or.inl (hpiece (coming.take MAXLINE) ?_ htake (List.take_prefix _ _) ?_)
      · intro hnil
        have : p.stream.take MAXLINE = [] := by rw [htake, hnil]; rfl
        rcases List.take_eq_nil_iff.mp this with h0 | h0
        · exact absurd h0 (by decide)
        · exact hs h0
      · rw [if_pos rfl, hstream, List.drop_append_of_le_length hlen, drop_plain, List.length_take,
          Nat.min_eq_left (length_plain coming ▸ hlen)]
        exact List.append_nil _

end Transit

/-- The status byte, the descriptor and the result that go with an answer: an
error code if `code` is negative, else a descriptor. -/
def wireStatus (code : ℤ) : Byte := if code < 0 then statusByte code else 0
def wireFd (code : ℤ) : Option ℕ := if code < 0 then none else some code.toNat
def outcome (code : ℤ) : ℤ := if code < 0 then -(statusByte code).toNat else code.toNat

/-- The rest of send_err while writen is at work. -/
def sendRest (code : ℤ) (n fuel : ℕ) (left : List Byte) : Prog sig Bool :=
  Transfers.writenLoop write n fuel left >>= fun r => if r ≠ n then .ret false else sendFd code

theorem sendFd_eq (code : ℤ) : sendFd code =
    .call (.sendmsg [0, wireStatus code] (wireFd code)) fun (n : Option ℕ) => .ret (n == some 2) := by
  by_cases h : code < 0
  · have hstatus : wireStatus code = statusByte code := if_pos h
    have hfd : wireFd code = none := if_pos h
    rw [sendFd, if_pos h, hstatus, hfd]
  · have hstatus : wireStatus code = 0 := if_neg h
    have hfd : wireFd code = some code.toNat := if_neg h
    rw [sendFd, if_neg h, hstatus, hfd]

theorem sendRest_nil (code : ℤ) (n fuel : ℕ) : sendRest code n fuel [] = sendFd code := by
  rw [sendRest, Transfers.writenLoop_nil, Prog.ret_bind, if_neg (not_not_intro rfl)]

theorem sendErr_eq (errcode : ℤ) (msg : List Byte) :
    sendErr errcode msg = sendRest (negative errcode) msg.length msg.length msg := by
  rw [sendErr]
  split
  · rfl
  · rename_i hlen
    obtain rfl : msg = [] := List.eq_nil_of_length_eq_zero (Nat.eq_zero_of_not_pos hlen)
    rw [sendRest_nil]

theorem statusByte_ne_zero (code : ℤ) : statusByte code ≠ 0 := by
  rw [statusByte]
  split
  · decide
  · assumption

theorem outcome_neg {code : ℤ} (h : code < 0) : outcome code < 0 := by
  have hpos : 0 < (statusByte code).toNat :=
    Nat.pos_of_ne_zero fun h0 => statusByte_ne_zero code (UInt8.toNat_inj.mp h0)
  rw [outcome, if_pos h]
  omega

theorem outcome_small {code : ℤ} (h : -255 ≤ code ∧ code ≤ -1) : outcome code = code := by
  have hnat : (UInt8.ofNat code.natAbs).toNat = code.natAbs := by
    rw [UInt8.toNat_ofNat']
    exact Nat.mod_eq_of_lt (by omega)
  have hne : UInt8.ofNat code.natAbs ≠ 0 := by
    intro h0
    rw [h0] at hnat
    have : (0 : UInt8).toNat = 0 := rfl
    omega
  rw [outcome, if_pos (by omega), statusByte, if_neg hne, hnat]
  omega

/-- Where the sender is. -/
def Sends (code : ℤ) (sender : Prog sig Bool) (left : List Byte) (marked : Bool) : Prop :=
  (marked = false ∧ ∃ n fuel, left.length ≤ fuel ∧ sender = sendRest code n fuel left) ∨
    (marked = true ∧ left = [] ∧ sender = .ret true)

/-- Where the receiver is: it waits for more of the answer, or it has all of it. -/
def Receives (text : List Byte) (code : ℤ) (p : Pipe) (left : List Byte) (marked : Bool)
    (receiver : Prog sig ℤ) : Prop :=
  (∃ held coming fuel, Transit text (wireStatus code) (wireFd code) p left marked held coming ∧
    p.stream.length + unsent left marked ≤ fuel ∧ receiver = handOver held (recvLoop fuel)) ∨
  (∃ held, marked = true ∧ left = [] ∧ p.stream = [] ∧ text = p.out ++ held ∧
    receiver = handOver held (.ret (outcome code)))

/-- The receiver has something for userfunc. -/
def pending : Prog sig ℤ → ℕ
  | .call (.userfunc _) _ => 1
  | _ => 0

/-- Every step makes this smaller. -/
def toGo (p : Pipe) (left : List Byte) (marked : Bool) (receiver : Prog sig ℤ) : ℕ :=
  3 * unsent left marked + 2 * p.stream.length + pending receiver

section Steps

variable {text left : List Byte} {code : ℤ} {p p' : Pipe} {marked : Bool} {sender : Prog sig Bool}
  {receiver : Prog sig ℤ} {n : ℕ}

/-- A call of the sender. -/
theorem send_step (hsends : Sends code sender left marked)
    (hrecv : Receives text code p left marked receiver) {c : Call} {k : c.Ret → Prog sig Bool}
    {r : c.Ret} (hcall : sender = .call c k) (hperf : perform n c p = some (r, p')) :
    ∃ left' marked', Sends code (k r) left' marked' ∧ Receives text code p' left' marked' receiver ∧
      p'.out = p.out ∧ toGo p' left' marked' receiver < toGo p left marked receiver := by
  rcases hsends with ⟨rfl, m, fuel, hfuel, hsender⟩ | ⟨-, -, hsender⟩
  · rcases hrecv with ⟨held, coming, fuel', htransit, hfuel', hreceiver⟩ | ⟨_, hm, _⟩
    · cases left with
      | nil =>
        rw [sendRest_nil, sendFd_eq] at hsender
        cases hcall.symm.trans hsender
        cases hperf
        refine ⟨[], true, Or.inr ⟨rfl, rfl, rfl⟩,
          Or.inl ⟨held, coming, fuel', htransit.mark, ?_, hreceiver⟩, rfl, ?_⟩
        · rw [sendmsg_items, List.length_append]
          exact hfuel'
        · simp [toGo, unsent]
          omega
      | cons b left =>
        cases fuel with
        | zero => cases hfuel
        | succ fuel =>
          have hsend : sender = .call (.write (b :: left)) _ := hsender
          cases hcall.symm.trans hsend
          simp only [perform] at hperf
          split at hperf
          · rename_i hn
            cases hperf
            obtain ⟨n, rfl⟩ := Nat.exists_eq_succ_of_ne_zero hn.1.ne'
            have hlen : ((b :: left).drop (n + 1)).length + (n + 1) = (b :: left).length := by
              rw [List.length_drop]
              omega
            have htake : ((b :: left).take (n + 1)).length = n + 1 := by
              rw [List.length_take]
              omega
            refine ⟨(b :: left).drop (n + 1), false, Or.inl ⟨rfl, m, fuel, by omega, rfl⟩,
              Or.inl ⟨held, coming, fuel', htransit.write (n + 1) (List.cons_ne_nil b left), ?_,
                hreceiver⟩, rfl, ?_⟩
            · simp only [unsent, List.length_append, List.length_map, htake] at hfuel' ⊢
              omega
            · simp only [toGo, unsent, List.length_append, List.length_map, htake]
              omega
          · cases hperf
    · cases hm
  · rw [hsender] at hcall
    cases hcall

/-- The sender has a next call as long as something is unsent. -/
theorem send_ready (hsends : Sends code sender left marked) (hmarked : marked = false) (p : Pipe) :
    ∃ n c, ∃ k : c.Ret → Prog sig Bool, ∃ r p', sender = .call c k ∧
      perform n c p = some (r, p') := by
  rcases hsends with ⟨-, m, fuel, hfuel, hsender⟩ | ⟨hm, -⟩
  · cases left with
    | nil =>
      rw [sendRest_nil, sendFd_eq] at hsender
      exact ⟨0, _, _, _, _, hsender, rfl⟩
    | cons b left =>
      cases fuel with
      | zero => cases hfuel
      | succ fuel =>
        have hperf : perform 1 (.write (b :: left)) p =
            some (some 1, { p with stream := p.stream ++ ([b].map (·, none)) }) := by
          rw [perform, if_pos ⟨Nat.one_pos, Nat.succ_pos _⟩]
          rfl
        exact ⟨1, _, _, _, _, hsender, hperf⟩
  · rw [hmarked] at hm
    cases hm

theorem pending_recvLoop (fuel : ℕ) : pending (recvLoop fuel) = 0 := by
  cases fuel <;> rfl

theorem pending_handOver_le (buf : List Byte) (next : Prog sig ℤ) (hnext : pending next = 0) :
    pending (handOver buf next) ≤ 1 := by
  rw [handOver]
  split
  · rw [hnext]
    exact Nat.zero_le 1
  · exact le_refl 1

/-- A text for userfunc is handed over. -/
theorem handOver_step {held : List Byte} {next : Prog sig ℤ} (hheld : held ≠ []) {c : Call}
    {k : c.Ret → Prog sig ℤ} {r : c.Ret} (hcall : handOver held next = .call c k)
    (hperf : perform n c p = some (r, p')) :
    k r = next ∧ p' = { p with out := p.out ++ held } ∧ pending (handOver held next) = 1 := by
  rw [handOver, if_neg hheld] at hcall ⊢
  cases hcall
  cases hperf
  exact ⟨if_neg (not_not_intro rfl), rfl, rfl⟩

/-- What the receiver does with a piece of text. -/
theorem recvLoop_text {fuel : ℕ} {piece : List Byte} (hne : piece ≠ []) (hnull : 0 ∉ piece)
    {c : Call} {k : c.Ret → Prog sig ℤ} {r : c.Ret} (hcall : recvLoop (fuel + 1) = .call c k)
    (hperf : perform n c p = some (r, p')) (htake : p.stream.take MAXLINE = plain piece) :
    k r = handOver piece (recvLoop fuel) ∧ p' = { p with stream := p.stream.drop MAXLINE } := by
  cases hcall
  simp only [perform] at hperf
  split at hperf
  · cases hperf
  · cases hperf
    simp only [htake, map_fst_plain, if_neg hne, findStatus_plain hnull]
    exact ⟨trivial, trivial⟩

/-- What the receiver does with the end of the answer. -/
theorem recvLoop_end {fuel : ℕ} {piece : List Byte} (hnull : 0 ∉ piece)
    {c : Call} {k : c.Ret → Prog sig ℤ} {r : c.Ret} (hcall : recvLoop (fuel + 1) = .call c k)
    (hperf : perform n c p = some (r, p'))
    (htake : p.stream.take MAXLINE = plain piece ++ marker (wireStatus code) (wireFd code)) :
    k r = handOver piece (.ret (outcome code)) ∧
      p' = { p with stream := p.stream.drop MAXLINE } := by
  cases hcall
  simp only [perform] at hperf
  split at hperf
  · cases hperf
  · cases hperf
    have hbytes : (plain piece ++ marker (wireStatus code) (wireFd code)).map Prod.fst =
        piece ++ [0, wireStatus code] := by
      rw [List.map_append, map_fst_plain]
      rfl
    have hfd : ((plain piece ++ marker (wireStatus code) (wireFd code)).filterMap Prod.snd).head? =
        wireFd code := by
      rw [List.filterMap_append, fds_plain, List.nil_append]
      cases hw : wireFd code <;> rfl
    have hne : piece ++ [0, wireStatus code] ≠ [] :=
      List.append_ne_nil_of_right_ne_nil piece (List.cons_ne_nil _ _)
    have hstatus : findStatus (piece ++ [0, wireStatus code]) = .ok (some (wireStatus code)) :=
      findStatus_append hnull _
    have hpiece : (piece ++ [0, wireStatus code]).take ((piece ++ [0, wireStatus code]).length - 2) =
        piece := by
      rw [List.length_append, List.length_cons, List.length_singleton, Nat.add_sub_cancel,
        List.take_left]
    simp only [htake, hbytes, hfd, if_neg hne, hstatus, hpiece, and_true]
    by_cases hcode : code < 0
    · have hzero : wireStatus code ≠ 0 := by
        rw [wireStatus, if_pos hcode]
        exact statusByte_ne_zero code
      rw [if_neg hzero, outcome, if_pos hcode, wireStatus, if_pos hcode]
    · have hzero : wireStatus code = 0 := if_neg hcode
      simp only [hzero, outcome, if_neg hcode, wireFd]
      rfl

/-- A call of the receiver. -/
theorem recv_step (htext : 0 ∉ text) (hrecv : Receives text code p left marked receiver) {c : Call}
    {k : c.Ret → Prog sig ℤ} {r : c.Ret} (hcall : receiver = .call c k)
    (hperf : perform n c p = some (r, p')) (hfits : c = .recvmsg → fits p = true) :
    Receives text code p' left marked (k r) ∧
      toGo p' left marked (k r) < toGo p left marked receiver := by
  rcases hrecv with ⟨held, coming, fuel, htransit, hfuel, rfl⟩ | ⟨held, rfl, rfl, hs, htext', rfl⟩
  · by_cases hheld : held = []
    · subst hheld
      rw [handOver, if_pos rfl] at hcall
      have hcoming : 0 ∉ coming := by
        intro hmem
        refine htext ?_
        rw [htransit.text_eq]
        exact List.mem_append_right _ hmem
      have hlength := htransit.length_eq
      obtain ⟨fuel, rfl⟩ : ∃ f, fuel = f + 1 := Nat.exists_eq_succ_of_ne_zero (by omega)
      have hc : c = .recvmsg := by
        cases hcall
        rfl
      have hs : p.stream ≠ [] := by
        rintro hs
        cases hcall
        rw [perform, if_pos hs] at hperf
        cases hperf
      have hpos : 0 < p.stream.length := List.length_pos_of_ne_nil hs
      rcases htransit.recv hs (hfits hc) with ⟨piece, rest, hne, rfl, htake, htransit'⟩ |
        ⟨hmarked, htake, hdrop⟩
      · have hnull : 0 ∉ piece := fun hmem => hcoming (List.mem_append_left _ hmem)
        obtain ⟨hk, rfl⟩ := recvLoop_text hne hnull hcall hperf htake
        have hlen : (p.stream.drop MAXLINE).length + piece.length = p.stream.length := by
          have h := congrArg List.length (List.take_append_drop MAXLINE p.stream)
          rw [List.length_append, htake, length_plain] at h
          omega
        have hpiece : 0 < piece.length := List.length_pos_of_ne_nil hne
        have hle := pending_handOver_le piece (recvLoop fuel) (pending_recvLoop fuel)
        refine ⟨Or.inl ⟨piece, rest, fuel, htransit', ?_, hk⟩, ?_⟩
        · simp only
          omega
        · rw [hk]
          simp only [toGo]
          omega
      · obtain ⟨hk, rfl⟩ := recvLoop_end hcoming hcall hperf htake
        have hle := pending_handOver_le coming (.ret (outcome code)) rfl
        refine ⟨Or.inr ⟨coming, hmarked, htransit.last hmarked, hdrop, ?_, hk⟩, ?_⟩
        · rw [htransit.text_eq, List.append_nil]
        · rw [hk]
          simp only [toGo, hdrop, List.length_nil]
          omega
    · obtain ⟨hk, rfl, hpending⟩ := handOver_step hheld hcall hperf
      refine ⟨Or.inl ⟨[], coming, fuel, htransit.userfunc, hfuel, hk⟩, ?_⟩
      rw [hk]
      simp only [toGo, hpending, pending_recvLoop]
      omega
  · by_cases hheld : held = []
    · subst hheld
      cases hcall
    · obtain ⟨hk, rfl, hpending⟩ := handOver_step hheld hcall hperf
      refine ⟨Or.inr ⟨[], rfl, rfl, hs, ?_, hk⟩, ?_⟩
      · simp only [List.append_nil]
        exact htext'
      · rw [hk]
        simp only [toGo, hpending]
        exact Nat.lt_succ_self _

/-- The receiver is at a call, or it has returned with all of the text. -/
theorem Receives.cases (hrecv : Receives text code p left marked receiver) :
    (∃ c, ∃ k : c.Ret → Prog sig ℤ, receiver = .call c k) ∨
      (receiver = .ret (outcome code) ∧ p.out = text ∧ marked = true ∧ p.stream = []) := by
  rcases hrecv with ⟨held, coming, fuel, htransit, hfuel, rfl⟩ | ⟨held, hm, -, hs, htext, rfl⟩
  · rw [handOver]
    split
    · have hlength := htransit.length_eq
      obtain ⟨fuel, rfl⟩ : ∃ f, fuel = f + 1 := Nat.exists_eq_succ_of_ne_zero (by omega)
      exact Or.inl ⟨_, _, rfl⟩
    · exact Or.inl ⟨_, _, rfl⟩
  · rw [handOver]
    split
    · rename_i hheld
      rw [hheld, List.append_nil] at htext
      exact Or.inr ⟨rfl, htext.symm, hm, hs⟩
    · exact Or.inl ⟨_, _, rfl⟩

/-- Until the receiver is done, it or the sender has a next call. -/
theorem recv_ready (hsends : Sends code sender left marked)
    (hrecv : Receives text code p left marked receiver) :
    (∃ v, receiver = .ret v) ∨
      (∃ n c, ∃ k : c.Ret → Prog sig Bool, ∃ r p', sender = .call c k ∧
        perform n c p = some (r, p')) ∨
      ∃ c, ∃ k : c.Ret → Prog sig ℤ, ∃ r p', receiver = .call c k ∧
        perform 0 c p = some (r, p') := by
  have hhand : ∀ held next, held ≠ [] → receiver = handOver held next →
      ∃ c, ∃ k : c.Ret → Prog sig ℤ, ∃ r p', receiver = .call c k ∧
        perform 0 c p = some (r, p') := by
    rintro held next hheld rfl
    rw [handOver, if_neg hheld]
    exact ⟨_, _, _, _, rfl, rfl⟩
  rcases hrecv with ⟨held, coming, fuel, htransit, hfuel, hreceiver⟩ | ⟨held, -, -, -, -, hreceiver⟩
  · by_cases hheld : held = []
    · subst hheld
      by_cases hs : p.stream = []
      · refine Or.inr (Or.inl (send_ready hsends ?_ p))
        rw [← Bool.not_eq_true]
        intro hmarked
        have hlength := htransit.length_eq
        rw [hs, htransit.last hmarked, hmarked] at hlength
        simp [unsent] at hlength
      · have hpos : 0 < p.stream.length := List.length_pos_of_ne_nil hs
        obtain ⟨fuel, rfl⟩ : ∃ f, fuel = f + 1 := Nat.exists_eq_succ_of_ne_zero (by omega)
        cases hperf : perform 0 .recvmsg p with
        | none =>
          rw [perform, if_neg hs] at hperf
          cases hperf
        | some v => exact Or.inr (Or.inr ⟨.recvmsg, _, v.1, v.2, hreceiver, hperf⟩)
    · exact Or.inr (Or.inr (hhand held _ hheld hreceiver))
  · by_cases hheld : held = []
    · subst hheld
      exact Or.inl ⟨_, hreceiver⟩
    · exact Or.inr (Or.inr (hhand held _ hheld hreceiver))

end Steps

/-- One side sends an error and the other one receives it. -/
structure Transfer where
  sender : Prog sig Bool
  receiver : Prog sig ℤ
  pipe : Pipe

/-- The side that moves; a write takes `n` bytes. -/
inductive Turn
  | send (n : ℕ)
  | recv

namespace Transfer

def start (errcode : ℤ) (text : List Byte) (fuel : ℕ) : Transfer :=
  ⟨sendErr errcode text, recvLoop fuel, ⟨[], []⟩⟩

def step (s : Transfer) : Turn → Option Transfer
  | .send n =>
    match s.sender with
    | .call c k => do
      let (r, p) ← perform n c s.pipe
      return { s with sender := k r, pipe := p }
    | _ => none
  | .recv =>
    match s.receiver with
    | .call c k => do
      let (r, p) ← perform 0 c s.pipe
      return { s with receiver := k r, pipe := p }
    | _ => none

/-- recvmsg does not find the null in the last place of its buffer. -/
def keeps (s : Transfer) : Turn → Bool
  | .send _ => true
  | .recv =>
    match s.receiver with
    | .call .recvmsg _ => fits s.pipe
    | _ => true

theorem step_cases {s s' : Transfer} {turn : Turn} (h : s.step turn = some s') :
    (∃ n c, ∃ k : c.Ret → Prog sig Bool, ∃ r p, turn = .send n ∧ s.sender = .call c k ∧
      perform n c s.pipe = some (r, p) ∧ s' = { s with sender := k r, pipe := p }) ∨
    ∃ c, ∃ k : c.Ret → Prog sig ℤ, ∃ r p, turn = .recv ∧ s.receiver = .call c k ∧
      perform 0 c s.pipe = some (r, p) ∧ s' = { s with receiver := k r, pipe := p } := by
  cases turn with
  | send n =>
    simp only [step] at h
    split at h
    · rename_i c k hcall
      obtain ⟨⟨r, p⟩, hperf, h⟩ := Option.bind_eq_some_iff.mp h
      cases h
      exact Or.inl ⟨n, c, k, r, p, rfl, hcall, hperf, rfl⟩
    · cases h
  | recv =>
    simp only [step] at h
    split at h
    · rename_i c k hcall
      obtain ⟨⟨r, p⟩, hperf, h⟩ := Option.bind_eq_some_iff.mp h
      cases h
      exact Or.inr ⟨c, k, r, p, rfl, hcall, hperf, rfl⟩
    · cases h

/-- The invariant, with a bound for the number of steps that are left. -/
def Ok (text : List Byte) (code : ℤ) (bound : ℕ) (s : Transfer) : Prop :=
  ∃ left marked, Sends code s.sender left marked ∧
    Receives text code s.pipe left marked s.receiver ∧ toGo s.pipe left marked s.receiver ≤ bound

theorem ok_start {text : List Byte} {errcode : ℤ} {fuel : ℕ} (hfuel : text.length + 2 ≤ fuel) :
    Ok text (negative errcode) (3 * (text.length + 2)) (start errcode text fuel) := by
  refine ⟨text, false, Or.inl ⟨rfl, text.length, text.length, le_refl _, sendErr_eq errcode text⟩,
    Or.inl ⟨[], text, fuel, Transit.start text _ _ [] rfl, ?_, rfl⟩, ?_⟩
  · simpa [start, unsent] using hfuel
  · simp [start, toGo, unsent, pending_recvLoop]

theorem Ok.step {text : List Byte} {code : ℤ} {bound : ℕ} {s s' : Transfer} {turn : Turn}
    (h : Ok text code bound s) (htext : 0 ∉ text) (hkeeps : s.keeps turn = true)
    (hs : s.step turn = some s') : ∃ bound', bound' < bound ∧ Ok text code bound' s' := by
  obtain ⟨left, marked, hsends, hrecv, hbound⟩ := h
  rcases step_cases hs with ⟨n, c, k, r, p, rfl, hcall, hperf, rfl⟩ |
    ⟨c, k, r, p, rfl, hcall, hperf, rfl⟩
  · obtain ⟨left', marked', hsends', hrecv', -, hlt⟩ := send_step hsends hrecv hcall hperf
    exact ⟨_, lt_of_lt_of_le hlt hbound, left', marked', hsends', hrecv', le_refl _⟩
  · have hfits : c = .recvmsg → fits s.pipe = true := by
      rintro rfl
      rwa [keeps, hcall] at hkeeps
    obtain ⟨hrecv', hlt⟩ := recv_step htext hrecv hcall hperf hfits
    exact ⟨_, lt_of_lt_of_le hlt hbound, left, marked, hsends, hrecv', le_refl _⟩

theorem ok_steps {text : List Byte} {code : ℤ} (htext : 0 ∉ text) {turns : List Turn} {bound : ℕ}
    {s s' : Transfer} (h : Ok text code bound s)
    (hs : steps (fun s a => if s.keeps a then s.step a else none) turns s = some s') :
    ∃ bound', bound' + turns.length ≤ bound ∧ Ok text code bound' s' := by
  induction turns generalizing s bound with
  | nil =>
    obtain rfl := Option.some.inj hs
    exact ⟨bound, le_refl _, h⟩
  | cons turn turns ih =>
    obtain ⟨s₁, hs₁, hs⟩ := Option.bind_eq_some_iff.mp hs
    simp only at hs₁
    split at hs₁
    · rename_i hkeeps
      obtain ⟨bound₁, hlt, h₁⟩ := h.step htext hkeeps hs₁
      obtain ⟨bound', hle, h'⟩ := ih h₁ hs
      refine ⟨bound', ?_, h'⟩
      rw [List.length_cons]
      omega
    · cases hs₁

/-- In every run in which recvmsg never finds the null in the last place of its
buffer: recv_fd does not stop with a format error, userfunc is given the text in
order, and the result is negative and the error code if that is small enough. A
run is not longer than three steps for each byte, and it can be continued until
recv_fd has returned. -/
theorem recv_err {text : List Byte} {errcode : ℤ} {fuel : ℕ} {turns : List Turn} {s : Transfer}
    (htext : 0 ∉ text) (hfuel : text.length + 2 ≤ fuel)
    (hs : steps (fun s a => if s.keeps a then s.step a else none) turns
      (start errcode text fuel) = some s) :
    turns.length ≤ 3 * (text.length + 2) ∧ (∀ msg, s.receiver ≠ .abort msg) ∧
    s.pipe.out <+: text ∧
    (∀ v, s.receiver = .ret v → s.pipe.out = text ∧ v < 0 ∧
      (-255 ≤ errcode ∧ errcode ≤ -1 → v = errcode)) ∧
    ((∃ v, s.receiver = .ret v) ∨ ∃ turn s', s.step turn = some s') := by
  obtain ⟨bound, hle, left, marked, hsends, hrecv, -⟩ := ok_steps htext (ok_start hfuel) hs
  have hready := recv_ready hsends hrecv
  refine ⟨by omega, fun msg habort => ?_, ?_, fun v hv => ?_, ?_⟩
  · rcases hrecv.cases with ⟨c, k, hcall⟩ | ⟨hret, -⟩
    · cases hcall.symm.trans habort
    · cases hret.symm.trans habort
  · rcases hrecv with ⟨held, coming, -, htransit, -⟩ | ⟨held, -, -, -, heq, -⟩
    · rw [htransit.text_eq, List.append_assoc]
      exact List.prefix_append _ _
    · rw [heq]
      exact List.prefix_append _ _
  · rcases hrecv.cases with ⟨c, k, hcall⟩ | ⟨hret, hout, -⟩
    · cases hcall.symm.trans hv
    · cases hret.symm.trans hv
      have hneg : negative errcode < 0 := by
        rw [negative]
        split <;> omega
      refine ⟨hout, outcome_neg hneg, fun hsmall => ?_⟩
      have hsame : negative errcode = errcode := if_neg (by omega)
      rw [hsame]
      exact outcome_small hsmall
  · rcases hready with hv | ⟨n, c, k, r, p, hcall, hperf⟩ | ⟨c, k, r, p, hcall, hperf⟩
    · exact Or.inl hv
    · refine Or.inr ⟨.send n, { s with sender := k r, pipe := p }, ?_⟩
      rw [step, hcall]
      simp only [hperf]
      rfl
    · refine Or.inr ⟨.recv, { s with receiver := k r, pipe := p }, ?_⟩
      rw [step, hcall]
      simp only [hperf]
      rfl

/-- The value that a receiver has returned. -/
def result (s : Transfer) : Option ℤ :=
  match s.receiver with
  | .ret v => some v
  | _ => none

theorem receiver_of_result {s : Transfer} {v : ℤ} (h : s.result = some v) : s.receiver = .ret v := by
  rw [result] at h
  split at h
  · rename_i v' hv
    rw [hv, Option.some.inj h]
  · cases h

/-- A text is received in two pieces, the second one with the end of the answer. -/
theorem recv_err_pieces : ∃ s, steps (fun s a => if keeps s a then step s a else none)
      [.send 1, .recv, .recv, .send 1, .send 0, .recv, .recv] (start (-2) [110, 111] 4) = some s ∧
    s.receiver = .ret (-2) ∧ s.pipe.out = [110, 111] := by
  have hrun : (steps (fun s a => if keeps s a then step s a else none)
      [.send 1, .recv, .recv, .send 1, .send 0, .recv, .recv] (start (-2) [110, 111] 4)).any
      (fun s => s.result == some (-2)) = true := by
    decide +kernel
  obtain ⟨s, hs, hresult⟩ := (Option.any_eq_true _ _).mp hrun
  have hret := receiver_of_result (eq_of_beq hresult)
  exact ⟨s, hs, hret, ((recv_err (by decide) (by decide) hs).2.2.2.1 _ hret).1⟩

def aborted (s : Transfer) : Bool :=
  match s.receiver with
  | .abort _ => true
  | _ => false

/-- With a text of 4095 bytes, the buffer of recv_fd ends between the null and the
status when all of it has been sent. -/
theorem recv_err_split :
    ¬ ∀ text errcode fuel turns s, 0 ∉ text → text.length + 2 ≤ fuel →
      steps step turns (start errcode text fuel) = some s →
      (∀ msg, s.receiver ≠ .abort msg) ∧ s.pipe.out <+: text ∧
      ∀ v, s.receiver = .ret v → s.pipe.out = text ∧ v < 0 ∧
        (-255 ≤ errcode ∧ errcode ≤ -1 → v = errcode) := by
  intro hall
  have hrun : (steps step [.send 4095, .send 0, .recv]
      (start (-1) (List.replicate 4095 120) 4097)).any aborted = true := by
    decide +kernel
  obtain ⟨s, hs, habort⟩ := (Option.any_eq_true _ _).mp hrun
  have hnull : (0 : Byte) ∉ List.replicate 4095 120 := by
    rw [List.mem_replicate]
    exact fun h => absurd h.2 (by decide)
  have hgood := (hall _ _ _ _ s hnull (by rw [List.length_replicate]) hs).1
  rw [aborted] at habort
  split at habort
  · rename_i msg hmsg
    exact hgood msg hmsg
  · cases habort

end Transfer

end Apue.Open
