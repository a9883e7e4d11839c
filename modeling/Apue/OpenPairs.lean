import Apue.OpenRequest
import Apue.OpenReply

/-!
A client and the open server over one connection. The client makes its calls of
csopen one after the other; each appends its request to one stream and waits in
recv_fd for an answer from the other. The server takes what a read returns for
one request, sends one answer to it and logs what it could not do. Nothing marks where
a request ends, so requests and answers stay paired as long as every request fits into
one read and nothing that is logged stops the server.
-/
namespace Apue.Open

open Decimal Formats Programs

/-- The arguments of a call of csopen. -/
structure OpenCall where
  name : List Byte
  oflag : ℤ

def OpenCall.request (call : OpenCall) : List Byte := csopenRequest call.name call.oflag

/-- The value that csopen returns for an answer, and the text it prints. -/
def Reply.code : Reply → ℤ
  | .err _ => -1
  | .fd newfd => newfd

def Reply.text : Reply → List Byte
  | .err msg => msg
  | .fd _ => []

/-- What handle_request does to send its answer. -/
def answer : Reply → Prog sig Bool
  | .err msg => sendErr (-1) msg
  | .fd newfd => sendFd newfd

/-- What handle_request does once it has its answer. -/
def Handled.finish (r : Handled) : Prog sig Bool := do
  let sent ← answer r.reply
  match r.logged with
  | none => return sent
  | some fmt => do
    logMsg fmt
    return sent

theorem Handled.finish_eq {r : Handled} (h : r.comesBack = true) : r.finish = answer r.reply := by
  unfold finish
  unfold comesBack at h
  cases hlogged : r.logged with
  | none => exact Prog.bind_ret _
  | some fmt =>
    rw [hlogged] at h
    simp only [logMsg_of h]
    exact Prog.bind_ret _

/-- The calls still to be made, the call of recv_fd that is going on, the two
streams, the server, the requests it has taken with its answers, and the results
of the calls that have returned. -/
structure Session where
  calls : List OpenCall
  client : Option (Prog sig ℤ)
  requests : List Byte
  pipe : Pipe
  server : Prog sig Bool
  served : List (List Byte × Reply)
  results : List (ℤ × List Byte)

/-- The files that open finds, and the variables that earlier requests have left,
may be different for every request. -/
inductive Move
  | call
  | client
  | returns
  | serve (files : Files) (g : Globals)
  | server (n : ℕ)

namespace Session

def connected (calls : List OpenCall) : Session := ⟨calls, none, [], ⟨[], []⟩, .ret true, [], []⟩

def step (uid fuel : ℕ) (s : Session) : Move → Option Session
  | .call =>
    match s.client, s.calls with
    | none, call :: calls => some { s with
        calls := calls
        client := some (recvLoop fuel)
        requests := s.requests ++ call.request
        pipe := { s.pipe with out := [] } }
    | _, _ => none
  | .client =>
    match s.client with
    | some (.call c k) => do
      let (r, p) ← perform 0 c s.pipe
      return { s with client := some (k r), pipe := p }
    | _ => none
  | .returns =>
    match s.client with
    | some (.ret v) => some { s with client := none, results := s.results ++ [(v, s.pipe.out)] }
    | _ => none
  | .serve files g =>
    match s.server with
    | .ret _ =>
      if s.requests ≠ [] ∧ g.Clean then
        let buf := s.requests.take MAXLINE
        let r := handleRequest files buf uid g
        some { s with
          requests := s.requests.drop MAXLINE
          server := r.finish
          served := s.served ++ [(buf, r.reply)] }
      else none
    | _ => none
  | .server n =>
    match s.server with
    | .call c k => do
      let (r, p) ← perform n c s.pipe
      return { s with server := k r, pipe := p }
    | _ => none

/-- What the server logs in this move has no conversion. -/
def harmless (uid : ℕ) (s : Session) : Move → Bool
  | .serve files g => (handleRequest files (s.requests.take MAXLINE) uid g).comesBack
  | _ => true

theorem step_cases {uid fuel : ℕ} {s s' : Session} {move : Move}
    (h : guarded (harmless uid) (step uid fuel) s move = some s') :
    (∃ call calls, s.client = none ∧ s.calls = call :: calls ∧ s' = { s with
        calls := calls
        client := some (recvLoop fuel)
        requests := s.requests ++ call.request
        pipe := { s.pipe with out := [] } }) ∨
    (∃ c, ∃ k : c.Ret → Prog sig ℤ, ∃ r p, s.client = some (.call c k) ∧
      perform 0 c s.pipe = some (r, p) ∧ s' = { s with client := some (k r), pipe := p }) ∨
    (∃ v, s.client = some (.ret v) ∧
      s' = { s with client := none, results := s.results ++ [(v, s.pipe.out)] }) ∨
    (∃ files g b, s.server = .ret b ∧ s.requests ≠ [] ∧ g.Clean ∧ s' = { s with
        requests := s.requests.drop MAXLINE
        server := answer (handleRequest files (s.requests.take MAXLINE) uid g).reply
        served := s.served ++
          [(s.requests.take MAXLINE, (handleRequest files (s.requests.take MAXLINE) uid g).reply)] }) ∨
    ∃ n c, ∃ k : c.Ret → Prog sig Bool, ∃ r p, s.server = .call c k ∧
      perform n c s.pipe = some (r, p) ∧ s' = { s with server := k r, pipe := p } := by
  obtain ⟨hharmless, h⟩ := Option.ite_none_right_eq_some.mp h
  cases move with
  | call =>
    simp only [step] at h
    split at h
    · rename_i call calls hclient hcalls
      cases h
      exact Or.inl ⟨call, calls, hclient, hcalls, rfl⟩
    · cases h
  | client =>
    simp only [step] at h
    split at h
    · rename_i c k hclient
      obtain ⟨⟨r, p⟩, hperf, h⟩ := Option.bind_eq_some_iff.mp h
      cases h
      exact Or.inr (Or.inl ⟨c, k, r, p, hclient, hperf, rfl⟩)
    · cases h
  | returns =>
    simp only [step] at h
    split at h
    · rename_i v hclient
      cases h
      exact Or.inr (Or.inr (Or.inl ⟨v, hclient, rfl⟩))
    · cases h
  | serve files g =>
    simp only [step] at h
    split at h
    · rename_i b hserver
      split at h
      · rename_i hif
        cases h
        rw [Handled.finish_eq hharmless]
        exact Or.inr (Or.inr (Or.inr (Or.inl ⟨files, g, b, hserver, hif.1, hif.2, rfl⟩)))
      · cases h
    · cases h
  | server n =>
    simp only [step] at h
    split at h
    · rename_i c k hserver
      obtain ⟨⟨r, p⟩, hperf, h⟩ := Option.bind_eq_some_iff.mp h
      cases h
      exact Or.inr (Or.inr (Or.inr (Or.inr ⟨n, c, k, r, p, hserver, hperf, rfl⟩)))
    · cases h

end Session

/-- What csopen gives back for an answer. -/
def Reply.result (r : Reply) : ℤ × List Byte := (r.code, r.text)

theorem answer_eq (r : Reply) : answer r = sendRest r.code r.text.length r.text.length r.text := by
  cases r with
  | err msg => exact sendErr_eq (-1) msg
  | fd newfd => exact (sendRest_nil newfd 0 0).symm

theorem outcome_code (r : Reply) : outcome r.code = r.code := by
  cases r with
  | err msg => exact (outcome_small ⟨by omega, by omega⟩ : outcome (-1) = -1)
  | fd newfd => rw [Reply.code, outcome, if_neg (by omega), Int.toNat_natCast]

/-- The answers that handle_request sends fit into the buffer of recv_fd. -/
def Reply.Short (r : Reply) : Prop := 0 ∉ r.text ∧ r.text.length + 2 ≤ MAXLINE

theorem short_reply (files : Files) (buf : List Byte) (uid : ℕ) {g : Globals} (hg : g.Clean) :
    (handleRequest files buf uid g).reply.Short := by
  obtain ⟨hclean, hmsg⟩ := clean_handleRequest files buf uid hg
  cases hr : (handleRequest files buf uid g).reply with
  | err msg =>
    rw [hmsg msg hr]
    refine ⟨hclean.1, ?_⟩
    have hlen := hclean.2
    rw [MAXLINE] at hlen ⊢
    simp only [Reply.text]
    omega
  | fd newfd => exact ⟨List.not_mem_nil, (by decide : 0 + 2 ≤ MAXLINE)⟩

/-- Such an answer is never cut between its last two bytes. -/
theorem fits_of_short {r : Reply} (hr : r.Short) {p : Pipe} {left : List Byte} {marked : Bool}
    {receiver : Prog sig ℤ} (hrecv : Receives r.text r.code p left marked receiver) :
    fits p = true := by
  rcases hrecv with ⟨held, coming, -, htransit, -⟩ | ⟨-, -, -, hs, -⟩
  · have hlength := htransit.length_eq
    have hcoming : coming.length ≤ r.text.length := by
      rw [htransit.text_eq, List.length_append]
      exact Nat.le_add_left _ _
    have hshort := hr.2
    cases hget : p.stream[MAXLINE - 1]? with
    | none => rw [fits, hget]; rfl
    | some item =>
      obtain ⟨hlt, -⟩ := List.getElem?_eq_some_iff.mp hget
      -- the stream is full, so its last byte is the status
      have hfull : coming.length + 2 = MAXLINE ∧ unsent left marked = 0 := by
        rw [MAXLINE] at *
        omega
      have hmarked : marked = true := by
        rw [← Bool.not_eq_false]
        rintro rfl
        simp [unsent] at hfull
      have hstream : p.stream = plain coming ++ marker (wireStatus r.code) (wireFd r.code) := by
        have h := htransit.stream_eq
        rwa [htransit.last hmarked, if_pos hmarked, plain, List.map_nil, List.nil_append,
          List.append_nil] at h
      have hstatus : item.1 = wireStatus r.code := by
        have hindex : MAXLINE - 1 = coming.length + 1 := by omega
        rw [hstream, hindex, List.getElem?_append_right (by rw [length_plain]; omega), length_plain,
          Nat.add_sub_cancel_left] at hget
        rw [← Option.some.inj hget]
      rw [fits, hget, Option.all_some, hstatus]
      cases r with
      | err msg => exact (by decide : (wireStatus (-1) != 0) = true)
      | fd newfd =>
        exfalso
        rw [Reply.text, List.length_nil] at hcoming
        rw [MAXLINE] at hfull
        omega
  · rw [fits, hs]
    rfl

namespace Session

/-- The number of steps that one call can take. -/
def STEPS : ℕ := 3 * MAXLINE + 3

/-- Where a session is: between two calls, after a request has been sent, or
while it is being answered. In the last case the answer is the one to the only
request that has not been answered yet. -/
inductive Phase (all : List OpenCall) (fuel : ℕ) : ℕ → Session → Prop
  | idle {s : Session} {done : List OpenCall} {bound : ℕ} (hall : all = done ++ s.calls)
      (hserved : s.served.map Prod.fst = done.map OpenCall.request)
      (hresults : s.results = s.served.map fun r => r.2.result) (hclient : s.client = none)
      (hrequests : s.requests = []) (hserver : s.server = .ret true) (hstream : s.pipe.stream = [])
      (hbound : s.calls.length * STEPS ≤ bound) : Phase all fuel bound s
  | requested {s : Session} {done : List OpenCall} {call : OpenCall} {bound : ℕ}
      (hall : all = done ++ call :: s.calls)
      (hserved : s.served.map Prod.fst = done.map OpenCall.request)
      (hresults : s.results = s.served.map fun r => r.2.result)
      (hclient : s.client = some (recvLoop fuel)) (hrequests : s.requests = call.request)
      (hserver : s.server = .ret true) (hpipe : s.pipe = ⟨[], []⟩)
      (hbound : s.calls.length * STEPS + (3 * MAXLINE + 2) ≤ bound) : Phase all fuel bound s
  | answering {s : Session} {done : List OpenCall} {call : OpenCall}
      {past : List (List Byte × Reply)} {reply : Reply} {left : List Byte} {marked : Bool}
      {receiver : Prog sig ℤ} {bound : ℕ} (hall : all = done ++ call :: s.calls)
      (hserved : s.served = past ++ [(call.request, reply)])
      (hpast : past.map Prod.fst = done.map OpenCall.request)
      (hresults : s.results = past.map fun r => r.2.result) (hclient : s.client = some receiver)
      (hrequests : s.requests = []) (hshort : reply.Short)
      (hsends : Sends reply.code s.server left marked)
      (hrecv : Receives reply.text reply.code s.pipe left marked receiver)
      (hbound : s.calls.length * STEPS + toGo s.pipe left marked receiver + 1 ≤ bound) :
      Phase all fuel bound s

theorem Phase.step {all : List OpenCall} {uid fuel bound : ℕ} {s s' : Session} {move : Move}
    (hall : ∀ call ∈ all, call.request.length ≤ MAXLINE) (hfuel : MAXLINE ≤ fuel)
    (h : Phase all fuel bound s)
    (hs : guarded (harmless uid) (Session.step uid fuel) s move = some s') :
    ∃ bound', bound' < bound ∧ Phase all fuel bound' s' := by
  cases h with
  | @idle _ done _ hall' hserved hresults hclient hrequests hserver hstream hbound =>
    rcases step_cases hs with ⟨call, calls, -, hcalls, rfl⟩ | ⟨c, k, r, p, hcall, -⟩ | ⟨v, hret, -⟩ |
      ⟨files, g, b, -, hne, -⟩ | ⟨n, c, k, r, p, hcall, -⟩
    · rw [hcalls] at hall' hbound
      rw [List.length_cons, Nat.add_mul, Nat.one_mul] at hbound
      have hsteps : STEPS = 3 * MAXLINE + 3 := rfl
      refine ⟨calls.length * STEPS + (3 * MAXLINE + 2), by omega,
        .requested hall' hserved hresults rfl ?_ hserver ?_ (le_refl _)⟩
      · simp only [hrequests, List.nil_append]
      · simp only [hstream]
    · cases hclient.symm.trans hcall
    · cases hclient.symm.trans hret
    · exact absurd hrequests hne
    · cases hserver.symm.trans hcall
  | @requested _ done call _ hall' hserved hresults hclient hrequests hserver hpipe hbound =>
    rcases step_cases hs with ⟨_, _, hnone, -⟩ | ⟨c, k, r, p, hcall, hperf, -⟩ | ⟨v, hret, -⟩ |
      ⟨files, g, b, -, hne, hclean, rfl⟩ | ⟨n, c, k, r, p, hcall, -⟩
    · cases hclient.symm.trans hnone
    · -- there is nothing to receive yet
      have hpos : 0 < fuel := lt_of_lt_of_le (by decide : 0 < MAXLINE) hfuel
      obtain ⟨fuel, rfl⟩ : ∃ f, fuel = f + 1 := Nat.exists_eq_succ_of_ne_zero hpos.ne'
      cases hclient.symm.trans hcall
      rw [hpipe, perform, if_pos rfl] at hperf
      cases hperf
    · have hpos : 0 < fuel := lt_of_lt_of_le (by decide : 0 < MAXLINE) hfuel
      obtain ⟨fuel, rfl⟩ : ∃ f, fuel = f + 1 := Nat.exists_eq_succ_of_ne_zero hpos.ne'
      cases hclient.symm.trans hret
    · have hlen : call.request.length ≤ MAXLINE :=
        hall call (by rw [hall']; exact List.mem_append_right _ List.mem_cons_self)
      have htake : s.requests.take MAXLINE = call.request := by
        rw [hrequests, List.take_of_length_le hlen]
      have hdrop : s.requests.drop MAXLINE = [] := by
        rw [hrequests, List.drop_eq_nil_iff]
        exact hlen
      rw [htake, hdrop]
      obtain ⟨reply, hreply⟩ : ∃ r, r = (handleRequest files call.request uid g).reply := ⟨_, rfl⟩
      have hshort : reply.Short := hreply ▸ short_reply files call.request uid hclean
      have hlen := hshort.2
      rw [← hreply]
      have hsends : Sends reply.code (answer reply) reply.text false :=
        Or.inl ⟨rfl, _, _, le_refl _, answer_eq reply⟩
      have hrecv : Receives reply.text reply.code s.pipe reply.text false (recvLoop fuel) := by
        refine Or.inl ⟨[], reply.text, fuel, ?_, ?_, rfl⟩
        · rw [hpipe]
          exact Transit.start reply.text _ _ [] rfl
        · rw [hpipe]
          simp only [unsent, List.length_nil, Nat.zero_add, if_neg Bool.false_ne_true]
          omega
      have hgo : toGo s.pipe reply.text false (recvLoop fuel) ≤ 3 * MAXLINE := by
        simp only [hpipe, toGo, unsent, List.length_nil, pending_recvLoop,
          if_neg Bool.false_ne_true]
        omega
      exact ⟨s.calls.length * STEPS + (3 * MAXLINE + 1), by omega,
        .answering hall' rfl hserved hresults hclient rfl hshort hsends hrecv (by simp only; omega)⟩
    · cases hserver.symm.trans hcall
  | @answering _ done call past reply left marked receiver _ hall' hserved hpast hresults hclient
      hrequests hshort hsends hrecv hbound =>
    rcases step_cases hs with ⟨_, _, hnone, -⟩ | ⟨c, k, r, p, hcall, hperf, rfl⟩ | ⟨v, hret, rfl⟩ |
      ⟨files, g, b, -, hne, -⟩ | ⟨n, c, k, r, p, hcall, hperf, rfl⟩
    · cases hclient.symm.trans hnone
    · obtain rfl := Option.some.inj (hclient.symm.trans hcall)
      obtain ⟨hrecv', hlt⟩ := recv_step hshort.1 hrecv rfl hperf fun _ => fits_of_short hshort hrecv
      exact ⟨_, lt_of_lt_of_le (Nat.succ_lt_succ (Nat.add_lt_add_left hlt _)) hbound,
        .answering hall' hserved hpast hresults rfl hrequests hshort hsends hrecv' (le_refl _)⟩
    · obtain rfl := Option.some.inj (hclient.symm.trans hret)
      rcases hrecv.cases with ⟨c, k, hcall⟩ | ⟨hv, hout, hmarked, hstream⟩
      · cases hcall
      · have hserver : s.server = .ret true := by
          rcases hsends with ⟨hm, -⟩ | ⟨-, -, hdone⟩
          · cases hmarked.symm.trans hm
          · exact hdone
        have hdone : all = (done ++ [call]) ++ s.calls := by
          rw [hall', List.append_assoc]
          rfl
        refine ⟨s.calls.length * STEPS, by omega, .idle hdone ?_ ?_ rfl hrequests hserver hstream
          (le_refl _)⟩
        · simp only [hserved, List.map_append, hpast]
          rfl
        · cases hv
          simp only [hserved, hresults, List.map_append, List.map_cons, List.map_nil, hout,
            outcome_code]
          rfl
    · exact absurd hrequests hne
    · obtain ⟨left', marked', hsends', hrecv', -, hlt⟩ := send_step hsends hrecv hcall hperf
      exact ⟨_, lt_of_lt_of_le (Nat.succ_lt_succ (Nat.add_lt_add_left hlt _)) hbound,
        .answering hall' hserved hpast hresults hclient hrequests hshort hsends' hrecv' (le_refl _)⟩

theorem Phase.connected (calls : List OpenCall) (fuel : ℕ) :
    Phase calls fuel (calls.length * STEPS) (connected calls) :=
  .idle (List.nil_append calls).symm rfl rfl rfl rfl rfl rfl (le_refl _)

theorem Phase.steps {all : List OpenCall} {uid fuel bound : ℕ} {moves : List Move} {s s' : Session}
    (hall : ∀ call ∈ all, call.request.length ≤ MAXLINE) (hfuel : MAXLINE ≤ fuel)
    (h : Phase all fuel bound s)
    (hs : Programs.steps (guarded (harmless uid) (Session.step uid fuel)) moves s = some s') :
    ∃ bound', bound' + moves.length ≤ bound ∧ Phase all fuel bound' s' := by
  induction moves generalizing s bound with
  | nil =>
    obtain rfl := Option.some.inj hs
    exact ⟨bound, le_refl _, h⟩
  | cons move moves ih =>
    obtain ⟨s₁, hs₁, hs⟩ := Option.bind_eq_some_iff.mp hs
    obtain ⟨bound₁, hlt, h₁⟩ := h.step hall hfuel hs₁
    obtain ⟨bound', hle, h'⟩ := ih h₁ hs
    refine ⟨bound', ?_, h'⟩
    rw [List.length_cons]
    omega

/-- As long as calls are left, somebody can move. -/
theorem Phase.ready {all : List OpenCall} {fuel bound : ℕ} {s : Session} (uid : ℕ)
    (h : Phase all fuel bound s) :
    s.results.length = all.length ∨
      ∃ move s', guarded (harmless uid) (Session.step uid fuel) s move = some s' := by
  cases h with
  | @idle _ done _ hall hserved hresults hclient =>
    cases hcalls : s.calls with
    | nil =>
      refine Or.inl ?_
      have hlen := congrArg List.length hserved
      rw [List.length_map, List.length_map] at hlen
      rw [hresults, List.length_map, hlen, hall, hcalls, List.append_nil]
    | cons call calls =>
      refine Or.inr ⟨.call, { s with
        calls := calls
        client := some (recvLoop fuel)
        requests := s.requests ++ call.request
        pipe := { s.pipe with out := [] } }, ?_⟩
      refine (guarded_of rfl).trans ?_
      rw [Session.step, hclient, hcalls]
  | @requested _ _ call _ _ _ _ _ hrequests hserver =>
    have hne : s.requests ≠ [] := by
      rw [hrequests]
      exact List.append_ne_nil_of_right_ne_nil _ (List.cons_ne_nil _ _)
    have hstep : (guarded (harmless uid) (Session.step uid fuel) s
        (.serve allFiles .initial)).isSome := by
      have hharmless : harmless uid s (.serve allFiles .initial) = true :=
        comesBack_allFiles (s.requests.take MAXLINE) uid
      rw [guarded_of hharmless]
      simp only [Session.step, hserver]
      rw [if_pos ⟨hne, by decide⟩]
      rfl
    exact Or.inr ⟨_, Option.isSome_iff_exists.mp hstep⟩
  | answering _ _ _ _ hclient _ _ hsends hrecv =>
    rcases recv_ready hsends hrecv with ⟨v, rfl⟩ | ⟨n, c, k, r, p, hcall, hperf⟩ |
      ⟨c, k, r, p, rfl, hperf⟩
    · refine Or.inr ⟨.returns, { s with
        client := none
        results := s.results ++ [(v, s.pipe.out)] }, ?_⟩
      refine (guarded_of rfl).trans ?_
      rw [Session.step, hclient]
    · refine Or.inr ⟨.server n, { s with server := k r, pipe := p }, ?_⟩
      refine (guarded_of rfl).trans ?_
      rw [Session.step, hcall]
      simp only [hperf]
      rfl
    · refine Or.inr ⟨.client, { s with client := some (k r), pipe := p }, ?_⟩
      refine (guarded_of rfl).trans ?_
      rw [Session.step, hclient]
      simp only [hperf]
      rfl

end Session

end Apue.Open
