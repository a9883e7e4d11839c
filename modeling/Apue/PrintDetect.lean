import Apue.PrintAccept

/-!
How client_thread decides whether a job is plain text. It compares the first four bytes of
its buffer with `%!PS` once, after the first read that returns something. Where that read
returns fewer than four bytes the comparison goes on with what the buffer held before, and
for a document without any bytes nothing is compared at all.
-/
namespace Apue.Print

open Programs Decimal ByteFiles

/-- What tread is going to return, and the requests that go into the control file and into
the queue. -/
structure Arrival where
  pieces : List (List Byte)
  stored : List (List Byte)
  queued : List (List Byte)

/-- The calls of a client whose connection delivers the pieces and ends, and whose job is
accepted. -/
def deliver : (c : Call) → Arrival → c.Ret × Arrival
  | .tread _, s =>
    match s.pieces with
    | [] => (.ok [], s)
    | piece :: pieces => (.ok piece, { s with pieces := pieces })
  | .write .data _ bytes, s => (.ok bytes.length, s)
  | .write .reqs _ bytes, s => (.ok bytes.length, { s with stored := s.stored ++ [bytes] })
  | .malloc job, s => (some 0, { s with queued := s.queued ++ [job.req] })
  | .creat _ _, s => (none, s)
  | .getNewjobno, s => ((1 : ℤ), s)
  | .respond _, s => ((), s)
  | .unlink _ _, s => ((), s)
  | .addJob _, s => ((), s)
  | .takeJob, s => ((0 : ℕ), s)
  | .loadJob _, s => ((⟨0, []⟩ : Job), s)
  | .loadNextjob, s => ((1 : ℤ), s)
  | .writeJobfile _, s => (true, s)
  | .openData _, s => (true, s)
  | .effort _ _, s => (true, s)
  | .replaceJob _, s => ((), s)
  | .free _ _, s => ((), s)
  | .opendir, s => ((none : Option (List ℤ)), s)
  | .readReq _, s => ((none : Option (Except Errno (List Byte))), s)

/-- The flags of a request that is stored as it lies in memory. -/
def flagsOf (image : List Byte) : ℕ := ofBytes (readAt image 4 4).reverse

def isTextFlag (flags : ℕ) : Prop := flags &&& PR_TEXT ≠ 0

/-- The job is plain text if and only if the client has said so or the document does not
begin with `%!PS`. -/
def ShouldBeText (req : PrintReq) (document : List Byte) : Prop :=
  isTextFlag req.flags ∨ ¬ POSTSCRIPT <+: document

/-- The flag that is stored and queued with the job is the one for the document in the
pieces. -/
def FlagsRight (buf : List Byte) (req : PrintReq) (pieces : List (List Byte)) : Prop :=
  ∀ fuel, pieces.length < fuel →
    ∃ image, ((acceptJob fuel buf req).run deliver (⟨pieces, [], []⟩ : Arrival)).2.stored = [image] ∧
      ((acceptJob fuel buf req).run deliver (⟨pieces, [], []⟩ : Arrival)).2.queued = [image] ∧
      (isTextFlag (flagsOf image) ↔ ShouldBeText req pieces.flatten)

/-- The client has said that the job is plain text, or there is a first piece and either it
has four bytes or one that is not as in `%!PS`, or else what the buffer held behind it is
the rest of `%!PS` if and only if the next bytes are. -/
def Recognised (buf : List Byte) (req : PrintReq) : List (List Byte) → Prop
  | [] => isTextFlag req.flags
  | piece :: pieces => isTextFlag req.flags ∨ 4 ≤ piece.length ∨ ¬ piece <+: POSTSCRIPT ∨
    (POSTSCRIPT.drop piece.length <+: buf.drop piece.length ↔
      POSTSCRIPT.drop piece.length <+: pieces.flatten)

/-- The request with the flags that it has after the loop. -/
def decided (buf : List Byte) (req : PrintReq) : List (List Byte) → PrintReq
  | [] => req
  | piece :: _ => { req with flags := textFlag (writeAt buf 0 piece) req.flags }

/-- One round of the loop. -/
theorem receive_round (fuel : ℕ) (jobid : ℤ) (req : PrintReq) (first : Bool) (buf : List Byte)
    (b : Byte) (block : List Byte) (pieces stored queued : List (List Byte)) :
    (receive (fuel + 1) jobid req first buf).run deliver ⟨(b :: block) :: pieces, stored, queued⟩ =
      (receive fuel jobid (if first then decided buf req ((b :: block) :: pieces) else req) false
        (writeAt buf 0 (b :: block))).run deliver ⟨pieces, stored, queued⟩ := by
  simp only [receive, tread, write, Prog.run_bind, Prog.run, deliver, ne_eq, not_true_eq_false,
    if_false]
  rfl

theorem receive_rest {fuel : ℕ} {pieces : List (List Byte)} (hne : ∀ piece ∈ pieces, piece ≠ [])
    (hfuel : pieces.length < fuel) (jobid : ℤ) (req : PrintReq) (buf : List Byte)
    (stored queued : List (List Byte)) :
    (receive fuel jobid req false buf).run deliver ⟨pieces, stored, queued⟩ =
      (.ok (.ok req), ⟨[], stored, queued⟩) := by
  induction fuel generalizing pieces buf with
  | zero => exact absurd hfuel (Nat.not_lt_zero _)
  | succ fuel ih =>
    cases pieces with
    | nil => rfl
    | cons piece pieces =>
      obtain ⟨b, block, rfl⟩ := List.exists_cons_of_ne_nil (hne piece List.mem_cons_self)
      rw [receive_round]
      exact ih (fun p hp => hne p (List.mem_cons_of_mem _ hp)) (Nat.lt_of_succ_lt_succ hfuel) _

/-- The loop decides with the first piece and reads all of them. -/
theorem receive_first {fuel : ℕ} {pieces : List (List Byte)} (hne : ∀ piece ∈ pieces, piece ≠ [])
    (hfuel : pieces.length < fuel) (jobid : ℤ) (req : PrintReq) (buf : List Byte)
    (stored queued : List (List Byte)) :
    (receive fuel jobid req true buf).run deliver ⟨pieces, stored, queued⟩ =
      (.ok (.ok (decided buf req pieces)), ⟨[], stored, queued⟩) := by
  obtain ⟨fuel, rfl⟩ := Nat.exists_eq_add_one_of_ne_zero (Nat.ne_of_gt (Nat.zero_lt_of_lt hfuel))
  cases pieces with
  | nil => rfl
  | cons piece pieces =>
    obtain ⟨b, block, rfl⟩ := List.exists_cons_of_ne_nil (hne piece List.mem_cons_self)
    rw [receive_round, if_pos rfl]
    exact receive_rest (fun p hp => hne p (List.mem_cons_of_mem _ hp))
      (Nat.lt_of_succ_lt_succ hfuel) jobid _ _ stored queued

/-- The request is stored and queued as it is after the loop. -/
theorem run_acceptJob {fuel : ℕ} {pieces : List (List Byte)} (hne : ∀ piece ∈ pieces, piece ≠ [])
    (hfuel : pieces.length < fuel) (req : PrintReq) (buf : List Byte) :
    ((acceptJob fuel buf req).run deliver (⟨pieces, [], []⟩ : Arrival)).2 =
      ⟨[], [(decided buf req pieces).image], [(decided buf req pieces).image]⟩ := by
  have hreceive := receive_first hne hfuel 1 req buf [] []
  have hlength := (decided buf req pieces).length_image
  simp only [acceptJob, getNewjobno, creat, enterJob, write, respond, addJobCall, Prog.run_bind,
    Prog.run, deliver, hreceive, hlength, ne_eq, not_true_eq_false, if_false, List.nil_append]

theorem flagsOf_image (req : PrintReq) : flagsOf req.image = req.flags % 2 ^ 32 := by
  have hread : readAt req.image 4 4 = le32 req.flags := by
    have hblock := readAt_block (le32 req.size) (le32 req.flags) (req.usernm ++ req.jobnm)
    rwa [← List.append_assoc] at hblock
  rw [flagsOf, hread, le32, List.reverse_reverse, ofBytes_be32]

theorem isTextFlag_iff {flags : ℕ} : isTextFlag flags ↔ flags % 2 = 1 := by
  rw [isTextFlag, PR_TEXT, Nat.and_one_is_mod]
  omega

theorem isTextFlag_image (req : PrintReq) :
    isTextFlag (flagsOf req.image) ↔ isTextFlag req.flags := by
  rw [isTextFlag_iff, isTextFlag_iff, flagsOf_image]
  omega

theorem isTextFlag_textFlag (buf : List Byte) (flags : ℕ) :
    isTextFlag (textFlag buf flags) ↔ isTextFlag flags ∨ ¬ POSTSCRIPT <+: buf := by
  have hprefix : POSTSCRIPT <+: buf ↔ buf.take 4 = POSTSCRIPT :=
    List.prefix_iff_eq_take.trans eq_comm
  rw [textFlag, hprefix]
  by_cases h : buf.take 4 = POSTSCRIPT
  · rw [if_pos h]
    exact ⟨Or.inl, fun ht => ht.resolve_right (not_not_intro h)⟩
  · rw [if_neg h]
    refine iff_of_true ?_ (.inr h)
    rw [isTextFlag, Nat.and_or_distrib_right, Nat.and_self]
    exact Nat.ne_of_gt (Nat.lt_of_lt_of_le Nat.one_pos Nat.right_le_or)

theorem prefix_append_of_le {text front back : List Byte} (h : text.length ≤ front.length) :
    text <+: front ++ back ↔ text <+: front :=
  ⟨fun htext => List.prefix_of_prefix_length_le htext (List.prefix_append front back) h,
    fun htext => htext.trans (List.prefix_append front back)⟩

theorem prefix_append_of_ge {text front back : List Byte} (h : front.length ≤ text.length) :
    text <+: front ++ back ↔ front <+: text ∧ text.drop front.length <+: back := by
  constructor
  · intro htext
    obtain ⟨rest, rfl⟩ := List.prefix_of_prefix_length_le (List.prefix_append front back) htext h
    exact ⟨List.prefix_append front rest, by rwa [List.drop_left, ← List.prefix_append_right_inj front]⟩
  · rintro ⟨⟨rest, rfl⟩, hback⟩
    rw [List.drop_left] at hback
    exact (List.prefix_append_right_inj front).mpr hback

theorem writeAt_zero (buf piece : List Byte) :
    writeAt buf 0 piece = piece ++ buf.drop piece.length := by
  rw [writeAt, List.take_zero, Nat.zero_sub, List.replicate_zero, Nat.zero_add]
  rfl

/-- Whether the comparison after the first read finds what a comparison with the document
would find. -/
theorem first_piece_iff {buf piece rest : List Byte} :
    (POSTSCRIPT <+: writeAt buf 0 piece ↔ POSTSCRIPT <+: piece ++ rest) ↔
      4 ≤ piece.length ∨ ¬ piece <+: POSTSCRIPT ∨
        (POSTSCRIPT.drop piece.length <+: buf.drop piece.length ↔
          POSTSCRIPT.drop piece.length <+: rest) := by
  rw [writeAt_zero]
  by_cases hlen : 4 ≤ piece.length
  · have hpiece : ∀ back, POSTSCRIPT <+: piece ++ back ↔ POSTSCRIPT <+: piece :=
      fun _ => prefix_append_of_le hlen
    rw [hpiece, hpiece]
    exact iff_of_true Iff.rfl (.inl hlen)
  · have hle : piece.length ≤ POSTSCRIPT.length := (Nat.lt_of_not_le hlen).le
    rw [prefix_append_of_ge hle, prefix_append_of_ge hle]
    tauto

/-- The flag is right if the request after the loop has the right one. -/
theorem flagsRight_decided {buf : List Byte} {req : PrintReq} {pieces : List (List Byte)}
    (hne : ∀ piece ∈ pieces, piece ≠ []) : FlagsRight buf req pieces ↔
      (isTextFlag (decided buf req pieces).flags ↔ ShouldBeText req pieces.flatten) := by
  constructor
  · intro h
    obtain ⟨image, hstored, -, hright⟩ := h (pieces.length + 1) (Nat.lt_succ_self _)
    rw [run_acceptJob hne (Nat.lt_succ_self _)] at hstored
    obtain rfl := List.singleton_inj.mp hstored
    rwa [isTextFlag_image] at hright
  · intro h fuel hfuel
    rw [run_acceptJob hne hfuel]
    exact ⟨_, rfl, rfl, by rwa [isTextFlag_image]⟩

/-- With a first piece the decision is the one about it. -/
theorem decided_cons {buf piece : List Byte} {req : PrintReq} {pieces : List (List Byte)} :
    (isTextFlag (decided buf req (piece :: pieces)).flags ↔
      ShouldBeText req (piece :: pieces).flatten) ↔ Recognised buf req (piece :: pieces) := by
  rw [decided, isTextFlag_textFlag, ShouldBeText, List.flatten_cons, Recognised, ← first_piece_iff]
  tauto

/-- The flag is right if and only if the job is recognised with what the first read
returns. -/
theorem flags_right_iff {buf : List Byte} {req : PrintReq} {pieces : List (List Byte)}
    (hne : ∀ piece ∈ pieces, piece ≠ []) :
    FlagsRight buf req pieces ↔ Recognised buf req pieces := by
  rw [flagsRight_decided hne]
  cases pieces with
  | nil =>
    have hempty : ¬ POSTSCRIPT <+: [].flatten := by decide
    exact ⟨fun h => h.mpr (.inr hempty), fun h => iff_of_true h (.inr hempty)⟩
  | cons piece pieces => exact decided_cons

/-- A request that leaves the decision to the daemon. -/
def unflagged : PrintReq where
  size := 4
  flags := 0
  usernm := List.replicate USERNM_MAX 0
  jobnm := List.replicate JOBNM_MAX 0
  usernm_length := List.length_replicate
  jobnm_length := List.length_replicate

/-- The four bytes in one piece. -/
theorem flags_right_whole : FlagsRight (List.replicate IOBUFSZ 0) unflagged [POSTSCRIPT] :=
  (flags_right_iff (by decide)).mpr (.inr (.inl (Nat.le_refl 4)))

/-- The four bytes in two pieces. -/
theorem flags_wrong_split : ¬ ∀ (buf : List Byte) (req : PrintReq) (pieces : List (List Byte)),
    buf.length = IOBUFSZ → (∀ piece ∈ pieces, piece ≠ [] ∧ piece.length ≤ IOBUFSZ) →
    FlagsRight buf req pieces := by
  intro h
  have hright := h (List.replicate IOBUFSZ 0) unflagged [[37], [33, 80, 83]] List.length_replicate
    (by decide)
  have hrecognised := decided_cons.mp ((flagsRight_decided (by decide)).mp hright)
  have hjunk : ¬ [33, 80, 83] <+: (List.replicate IOBUFSZ (0 : Byte)).drop 1 := by
    rw [List.drop_replicate, show IOBUFSZ - 1 = 8190 + 1 from rfl, List.replicate_succ,
      List.cons_prefix_cons]
    exact fun hhead => absurd hhead.1 (by decide)
  rcases hrecognised with htext | hlen | hbyte | hrest
  · exact htext rfl
  · exact absurd hlen (by decide)
  · exact hbyte (by decide)
  · exact hjunk (hrest.mpr (by decide))

end Apue.Print
