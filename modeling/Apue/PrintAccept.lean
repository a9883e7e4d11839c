import Apue.PrintModel

/-!
What the client thread of the daemon stores. Whatever its calls return, it accepts a
job only when the data file holds what has arrived after the header, byte for byte,
and from then on it does not touch the file any more. The rules are for the thread
alone; they hold for every way in which the data comes and ends.
-/
namespace Apue.Print

open Programs Decimal ByteFiles

/-- What the client thread has received, what is in the data file of its job, whether
the data has ended and the job has been accepted. An error number that does not fit
into 32 bits is `strange`. -/
structure Spooled where
  received : List Byte
  data : Option (List Byte)
  ended : Bool
  accepted : Bool
  strange : Bool

def Errno.isStrange (e : Errno) : Bool := 2 ^ 32 ≤ e.value

/-- What has arrived goes to the data file, byte for byte. -/
structure Spooled.Stored (g : Spooled) : Prop where
  header : SIZEOF_PRINTREQ ≤ g.received.length
  data : g.data = some (g.received.drop SIZEOF_PRINTREQ)
  ended : g.ended = true

/-- The job is accepted only when the data file holds what has arrived, and from
then on nothing is changed. -/
def serverRules : Rules sig Spooled where
  pre
    | .tread _, g => g.strange = false → g.ended = false ∧ g.accepted = false
    | .creat .data _, g => g.strange = false → g.accepted = false
    | .write .data _ _, g => g.strange = false → g.accepted = false
    | .unlink .data _, g => g.strange = false → g.accepted = false
    | .respond res, g => g.strange = false → res.retcode = 0 → g.Stored
    | _, _ => True
  post
    | .tread _, .ok [], g => { g with ended := g.ended || SIZEOF_PRINTREQ ≤ g.received.length }
    | .tread _, .ok (b :: block), g => { g with received := g.received ++ b :: block }
    | .tread _, .error e, g => { g with
        ended := g.ended || SIZEOF_PRINTREQ ≤ g.received.length
        strange := g.strange || e.isStrange }
    | .creat .data _, none, g => { g with data := some [] }
    | .creat _ _, some e, g => { g with strange := g.strange || e.isStrange }
    | .write .data _ bytes, .ok nw, g => { g with data := g.data.map fun d => d ++ bytes.take nw }
    | .write _ _ _, .error e, g => { g with strange := g.strange || e.isStrange }
    | .unlink .data _, _, g => { g with data := none }
    | .respond res, _, g => { g with accepted := g.accepted || res.retcode == 0 }
    | _, _, g => g

theorem ofBytes_four (a b c d : Byte) :
    ofBytes [a, b, c, d] = ((a.toNat * 256 + b.toNat) * 256 + c.toNat) * 256 + d.toNat := by
  simp only [ofBytes, List.foldl_cons, List.foldl_nil]
  omega

theorem ofBytes_be32 (n : ℕ) : ofBytes (be32 n) = n % 2 ^ 32 := by
  rw [be32, ofBytes_four]
  simp only [UInt8.toNat_ofNat']
  omega

theorem htonl_ne_zero {n : ℕ} (hpos : 0 < n) (hlt : n < 2 ^ 32) : htonl n ≠ 0 := by
  intro h
  rw [htonl, le32, be32] at h
  simp only [List.reverse_cons, List.reverse_nil, List.nil_append, List.cons_append, ofBytes_four,
    UInt8.toNat_ofNat'] at h
  omega

variable {g : Spooled}

/-- A request that is not accepted gets another code than zero. -/
theorem reject_code {e : Errno} (he : e.isStrange = false) : htonl e.value ≠ 0 := by
  have hlt : ¬ 2 ^ 32 ≤ e.value := of_decide_eq_false he
  have hpos : 0 < e.value := by
    cases e <;> simp [Errno.value]
  exact htonl_ne_zero hpos (Nat.lt_of_not_le hlt)

theorem obeys_rejected {e : Errno} (he : g.strange = false → e.isStrange = false) :
    serverRules.Obeys (reject e) g fun _ _ => True :=
  ⟨fun hs hzero => absurd hzero (reject_code (he hs)), fun _ => trivial⟩

theorem obeys_reject {e : Errno} {next : Prog sig Unit} (he : g.strange = false → e.isStrange = false)
    (haccepted : g.strange = false → g.accepted = false)
    (hnext : ∀ g', (g'.strange = false → g'.accepted = false) →
      serverRules.Obeys next g' fun _ _ => True) :
    serverRules.Obeys (reject e >>= fun _ => next) g fun _ _ => True := by
  refine ⟨fun hs hzero => absurd hzero (reject_code (he hs)), fun _ => hnext _ fun hs => ?_⟩
  have hne : (htonl e.value == 0) = false := beq_eq_false_iff_ne.mpr (reject_code (he hs))
  simp only [serverRules, hne, Bool.or_false]
  exact haccepted hs

theorem strange_or {a b : Bool} (h : (a || b) = false) : a = false ∧ b = false :=
  Bool.or_eq_false_iff.mp h

theorem not_ended {ended : Bool} {n : ℕ} (h : ended = false) (hn : n < SIZEOF_PRINTREQ) :
    (ended || decide (SIZEOF_PRINTREQ ≤ n)) = false := by
  rw [h, Bool.false_or]
  exact decide_eq_false (Nat.not_le.mpr hn)

/-- What treadn has returned. -/
def Spooled.HeaderRead (g : Spooled) : Except Errno (List Byte) → Prop
  | .error e => g.strange = false → e.isStrange = false
  | .ok bytes => g.received = bytes

/-- treadn reads the header and nothing else. -/
theorem obeys_treadnLoop {fuel nleft : ℕ} {acc : List Byte} (hacc : g.received = acc)
    (hlen : 0 < nleft → acc.length + nleft = SIZEOF_PRINTREQ) (hended : g.ended = false)
    (haccepted : g.accepted = false) :
    serverRules.Obeys (Transfers.treadnLoop tread fuel nleft acc) g fun r g' =>
      g'.ended = false ∧ g'.accepted = false ∧ g'.HeaderRead r := by
  induction fuel generalizing nleft acc g with
  | zero =>
    cases nleft with
    | zero => exact ⟨hended, haccepted, hacc⟩
    | succ nleft => trivial
  | succ fuel ih =>
    cases nleft with
    | zero => exact ⟨hended, haccepted, hacc⟩
    | succ nleft =>
      have hshort : g.received.length < SIZEOF_PRINTREQ := by
        rw [hacc]
        have := hlen (Nat.succ_pos nleft)
        omega
      refine ⟨fun _ => ⟨hended, haccepted⟩, fun r => ?_⟩
      cases r with
      | error e =>
        simp only
        split
        · exact ⟨not_ended hended hshort, haccepted, fun hs => (strange_or hs).2⟩
        · exact ⟨not_ended hended hshort, haccepted, hacc⟩
      | ok block =>
        cases block with
        | nil => exact ⟨not_ended hended hshort, haccepted, hacc⟩
        | cons b block =>
          refine ih ?_ (fun hpos => ?_) hended haccepted
          · simp only [serverRules, hacc]
          · have := hlen (Nat.succ_pos nleft)
            simp only [List.length_append, List.length_cons] at hpos ⊢
            omega

/-- What has arrived is in the data file, and more may come. -/
structure Spooled.Storing (g : Spooled) : Prop where
  header : SIZEOF_PRINTREQ ≤ g.received.length
  data : g.data = some (g.received.drop SIZEOF_PRINTREQ)
  ended : g.ended = false
  accepted : g.accepted = false

/-- The loop of client_thread stores what it receives until the data ends. -/
theorem obeys_receive {fuel : ℕ} {jobid : ℤ} {req : PrintReq} {first : Bool} {buf : List Byte}
    (hg : g.Storing) :
    serverRules.Obeys (receive fuel jobid req first buf) g fun r g' =>
      g'.accepted = false ∧
        match r with
        | .error e => g'.strange = false → e.isStrange = false
        | .ok _ => g'.Stored := by
  induction fuel generalizing g req first buf with
  | zero => trivial
  | succ fuel ih =>
    have hended : (g.ended || decide (SIZEOF_PRINTREQ ≤ g.received.length)) = true := by
      rw [decide_eq_true hg.header, Bool.or_true]
    refine ⟨fun _ => ⟨hg.ended, hg.accepted⟩, fun r => ?_⟩
    cases r with
    | error e => exact ⟨hg.accepted, hg.header, hg.data, hended⟩
    | ok block =>
      cases block with
      | nil => exact ⟨hg.accepted, hg.header, hg.data, hended⟩
      | cons b block =>
        refine ⟨fun _ => hg.accepted, fun w => ?_⟩
        cases w with
        | error e => exact ⟨hg.accepted, fun hs => (strange_or hs).2⟩
        | ok nw =>
          change serverRules.Obeys (if nw ≠ (b :: block).length then Prog.ret (Except.error .eio)
            else receive fuel jobid _ false _) _ _
          by_cases hnw : nw ≠ (b :: block).length
          · rw [if_pos hnw]
            exact ⟨hg.accepted, fun _ => rfl⟩
          · rw [if_neg hnw]
            refine ih ⟨?_, ?_, hg.ended, hg.accepted⟩
            · simp only [serverRules, List.length_append]
              exact Nat.le_add_right_of_le hg.header
            · -- all of the block has been written
              simp only [serverRules, hg.data, Option.map_some]
              rw [List.drop_append_of_le_length hg.header, List.take_of_length_le]
              omega

theorem obeys_unlink {dir : Dir} {jobid : ℤ} {next : Prog sig Unit}
    (hg : g.strange = false → g.accepted = false)
    (hnext : ∀ g', (g'.strange = false → g'.accepted = false) →
      serverRules.Obeys next g' fun _ _ => True) :
    serverRules.Obeys (unlink dir jobid >>= fun _ => next) g fun _ _ => True := by
  cases dir with
  | data => exact ⟨hg, fun _ => hnext _ hg⟩
  | reqs => exact ⟨trivial, fun _ => hnext _ hg⟩

/-- The control file and the response. -/
theorem obeys_enterJob {jobid : ℤ} {req : PrintReq} (hg : g.Stored) (haccepted : g.accepted = false) :
    serverRules.Obeys (enterJob jobid req) g fun _ _ => True := by
  refine ⟨trivial, fun r => ?_⟩
  cases r with
  | some e =>
    refine obeys_reject (fun hs => (strange_or hs).2) (fun _ => haccepted) fun g' hg' => ?_
    exact ⟨hg', fun _ => trivial⟩
  | none =>
    refine ⟨trivial, fun w => ?_⟩
    have hdiscard : ∀ (e : Errno) (g' : Spooled), (g'.strange = false → e.isStrange = false) →
        g'.accepted = false → serverRules.Obeys (discard jobid e) g' fun _ _ => True := by
      intro e g' he hacc
      refine obeys_reject he (fun _ => hacc) fun g₁ hg₁ => ?_
      refine obeys_unlink hg₁ fun g₂ hg₂ => ?_
      exact ⟨hg₂, fun _ => trivial⟩
    cases w with
    | error e => exact hdiscard e _ (fun hs => (strange_or hs).2) haccepted
    | ok nw =>
      change serverRules.Obeys (if nw ≠ SIZEOF_PRINTREQ then discard jobid .eio else _) _ _
      by_cases hnw : nw ≠ SIZEOF_PRINTREQ
      · rw [if_pos hnw]
        exact hdiscard .eio _ (fun _ => rfl) haccepted
      · rw [if_neg hnw]
        refine ⟨fun _ _ => hg, fun _ => ⟨trivial, fun jp => ?_⟩⟩
        cases jp with
        | none => trivial
        | some jp => exact ⟨trivial, fun _ => trivial⟩

/-- Whatever the calls return, client_thread accepts a job only when the data file
holds exactly what has arrived after the header. -/
theorem obeys_clientThread (fuel : ℕ) (buf : List Byte) :
    serverRules.Obeys (clientThread fuel buf) ⟨[], none, false, false, false⟩ fun _ _ => True := by
  have hread : serverRules.Obeys (treadn SIZEOF_PRINTREQ) ⟨[], none, false, false, false⟩
      fun r g' => g'.ended = false ∧ g'.accepted = false ∧ g'.HeaderRead r :=
    obeys_treadnLoop rfl (fun _ => rfl) rfl rfl
  refine Rules.Obeys.bind (hread.mono fun r g hg => ?_)
  obtain ⟨hended, haccepted, hr⟩ := hg
  cases r with
  | error e => exact obeys_rejected hr
  | ok bytes =>
    simp only
    split
    · rename_i hlen
      have hreceived : g.received = bytes := hr
      have hstoring : Spooled.Storing { g with data := some [] } := by
        refine ⟨?_, ?_, hended, haccepted⟩
        · simp only [hreceived, hlen, le_refl]
        · simp only [hreceived, List.drop_of_length_le hlen.le]
      refine ⟨trivial, fun jobid => ⟨fun _ => haccepted, fun c => ?_⟩⟩
      cases c with
      | some e => exact obeys_rejected fun hs => (strange_or hs).2
      | none =>
        change serverRules.Obeys (receive fuel jobid _ true buf >>= _) _ _
        refine Rules.Obeys.bind ((obeys_receive hstoring).mono fun r g' hg' => ?_)
        cases r with
        | error e =>
          refine obeys_reject hg'.2 (fun _ => hg'.1) fun g₁ hg₁ => ?_
          exact ⟨hg₁, fun _ => trivial⟩
        | ok req => exact obeys_enterJob hg'.2 hg'.1
    · exact obeys_rejected fun _ => rfl

end Apue.Print
