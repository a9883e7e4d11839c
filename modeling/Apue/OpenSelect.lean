import Apue.OpenClients
import Apue.Programs
import Mathlib.Data.Finset.Insert
import Mathlib.Logic.Relation

/-!
The loop of the open server that waits in select. One step of the model is a
call of select, together with serv_accept if the listening descriptor is ready,
or one pass through the body of the loop over the clients. What select and the
reads return is arbitrary, and a new connection gets any descriptor that is not
open. The server stops where the source calls log_sys.
-/
namespace Apue.Open

open Decimal Programs

def FD_SETSIZE : ℕ := 1024

/-- The variables of loop, and the connections that are open, each with the user
ID that serv_accept returned for it. -/
structure SelectServer where
  conns : ℕ → Option ℕ
  listenfd : ℕ
  client : List Client
  allset : Finset ℕ
  maxfd : ℕ
  maxi : ℤ
  /-- The descriptors that select reported. -/
  rset : Finset ℕ
  /-- The index of the loop over the clients, or the top of the outer loop. -/
  index : Option ℕ
  /-- The descriptors read in this pass through the outer loop. -/
  reads : List ℕ

/-- The server after serv_listen. -/
def listening (listenfd : ℕ) : SelectServer where
  conns _ := none
  listenfd := listenfd
  client := []
  allset := {listenfd}
  maxfd := listenfd
  maxi := -1
  rset := ∅
  index := none
  reads := []

inductive SelectAction
  | select (rset : Finset ℕ) (accepted : Option (ℕ × ℕ))
  | client (recv : Recv)

namespace SelectServer

/-- A new client. -/
def accept (s : SelectServer) (clifd uid : ℕ) : Option SelectServer := do
  let (i, client) ← clientAdd s.client clifd uid
  return { s with
    conns := Function.update s.conns clifd (some uid)
    client := client
    allset := insert clifd s.allset
    maxfd := if clifd > s.maxfd then clifd else s.maxfd
    maxi := if (i : ℤ) > s.maxi then i else s.maxi }

/-- A client that has closed its connection. -/
def closed (s : SelectServer) (clifd : ℕ) : Option SelectServer := do
  let client ← clientDel s.client clifd
  return { s with
    conns := Function.update s.conns clifd none
    client := client
    allset := s.allset.erase clifd }

/-- The body of the loop over the clients, with the call of handle_request that
it makes. An index beyond the array has no result. -/
def serve (s : SelectServer) (i : ℕ) (recv : Recv) : Option (SelectServer × Option Request) := do
  let c ← s.client[i]?
  match c.fd with
  | none => return ({ s with index := some (i + 1) }, none)
  | some clifd =>
    if clifd ∈ s.rset then
      let s := { s with index := some (i + 1), reads := s.reads ++ [clifd] }
      match recv with
      | .error => none
      | .eof => do
        let s ← s.closed clifd
        return (s, none)
      | .data buf => return (s, some ⟨buf, clifd, c.uid⟩)
    else return ({ s with index := some (i + 1) }, none)

def step (s : SelectServer) : SelectAction → Option (SelectServer × Option Request)
  | .select rset accepted =>
    if s.index = none ∧ ∀ fd ∈ rset, fd ∈ s.allset ∧ fd ≤ s.maxfd then
      if s.listenfd ∈ rset then
        match accepted with
        | none => none
        | some (clifd, uid) =>
          if clifd ≠ s.listenfd ∧ s.conns clifd = none ∧ clifd < FD_SETSIZE then do
            let s ← s.accept clifd uid
            return (s, none)
          else none
      else some ({ s with rset := rset, index := some 0, reads := [] }, none)
    else none
  | .client recv =>
    match s.index with
    | none => none
    | some i =>
      if (i : ℤ) ≤ s.maxi then if recv.Possible then s.serve i recv else none
      else some ({ s with index := none }, none)

/-- What a pass through the body of the loop can do. -/
theorem serve_cases {s s' : SelectServer} {i : ℕ} {recv : Recv} {req : Option Request}
    (h : s.serve i recv = some (s', req)) :
    (s' = { s with index := some (i + 1) } ∧ req = none ∧
      ∀ fd uid, connection s.client i = some (fd, uid) → fd ∉ s.rset) ∨
    ∃ clifd uid, connection s.client i = some (clifd, uid) ∧ clifd ∈ s.rset ∧
      ((closed { s with index := some (i + 1), reads := s.reads ++ [clifd] } clifd = some s' ∧
          req = none) ∨
        ∃ buf, s' = { s with index := some (i + 1), reads := s.reads ++ [clifd] } ∧
          req = some ⟨buf, clifd, uid⟩) := by
  obtain ⟨c, hc, h⟩ := Option.bind_eq_some_iff.mp h
  split at h
  · rename_i hfd
    cases h
    refine Or.inl ⟨rfl, rfl, fun fd uid hconn => ?_⟩
    cases (connection_of_available hc hfd).symm.trans hconn
  · rename_i clifd hfd
    have hconn := connection_of_getElem hc hfd
    split at h
    · rename_i hmem
      refine Or.inr ⟨clifd, c.uid, hconn, hmem, ?_⟩
      cases recv with
      | error => cases h
      | eof =>
        obtain ⟨s₁, hs₁, h⟩ := Option.bind_eq_some_iff.mp h
        cases h
        exact Or.inl ⟨hs₁, rfl⟩
      | data buf =>
        cases h
        exact Or.inr ⟨buf, rfl, rfl⟩
    · rename_i hmem
      cases h
      refine Or.inl ⟨rfl, rfl, fun fd uid hconn' => ?_⟩
      obtain ⟨rfl, -⟩ := Prod.mk.inj (Option.some.inj (hconn.symm.trans hconn'))
      exact hmem

/-- What one step can do. -/
theorem step_cases {s s' : SelectServer} {a : SelectAction} {req : Option Request}
    (h : s.step a = some (s', req)) :
    (∃ clifd uid, s.index = none ∧ clifd ≠ s.listenfd ∧ s.conns clifd = none ∧
        s.accept clifd uid = some s' ∧ req = none) ∨
      (∃ rset, s.index = none ∧ (∀ fd ∈ rset, fd ∈ s.allset) ∧ s.listenfd ∉ rset ∧
        s' = { s with rset := rset, index := some 0, reads := [] } ∧ req = none) ∨
      (∃ i recv, s.index = some i ∧ (i : ℤ) ≤ s.maxi ∧ s.serve i recv = some (s', req)) ∨
      ∃ i : ℕ, s.index = some i ∧ s' = { s with index := none } ∧ req = none := by
  cases a with
  | select rset accepted =>
    simp only [step] at h
    split at h
    · rename_i hif
      split at h
      · cases accepted with
        | none => cases h
        | some r =>
          obtain ⟨clifd, uid⟩ := r
          simp only at h
          split at h
          · rename_i hfree
            obtain ⟨s₁, hs₁, h⟩ := Option.bind_eq_some_iff.mp h
            cases h
            exact Or.inl ⟨clifd, uid, hif.1, hfree.1, hfree.2.1, hs₁, rfl⟩
          · cases h
      · rename_i hlisten
        cases h
        exact Or.inr (Or.inl ⟨rset, hif.1, fun fd hfd => (hif.2 fd hfd).1, hlisten, rfl, rfl⟩)
    · cases h
  | client recv =>
    simp only [step] at h
    split at h
    · cases h
    · rename_i i hi
      split at h
      · rename_i hle
        split at h
        · exact Or.inr (Or.inr (Or.inl ⟨i, recv, hi, hle, h⟩))
        · cases h
      · cases h
        exact Or.inr (Or.inr (Or.inr ⟨i, hi, rfl, rfl⟩))

/-- The table of clients, the descriptor set, the two bounds and the open
connections agree. -/
structure Agrees (s : SelectServer) : Prop where
  allset : ∀ fd, fd ∈ s.allset ↔ fd = s.listenfd ∨ ∃ i uid, connection s.client i = some (fd, uid)
  distinct : ∀ i j fd u v, connection s.client i = some (fd, u) →
    connection s.client j = some (fd, v) → i = j
  maxfd : ∀ fd ∈ s.allset, fd ≤ s.maxfd
  maxi : ∀ i v, connection s.client i = some v → (i : ℤ) ≤ s.maxi
  size : s.maxi < s.client.length
  accepted : ∀ i fd uid, connection s.client i = some (fd, uid) →
    fd ≠ s.listenfd ∧ ∃ u, uid = some u ∧ s.conns fd = some u

/-- In the loop over the clients: a descriptor that select reported was read once
already, or its client is still to come. -/
structure Reading (s : SelectServer) (i : ℕ) : Prop where
  nodup : s.reads.Nodup
  ready : ∀ fd ∈ s.reads, fd ∈ s.rset
  waiting : ∀ fd ∈ s.rset, fd ∉ s.reads →
    ∃ j uid, i ≤ j ∧ connection s.client j = some (fd, uid)
  done : ∀ j fd uid, i ≤ j → connection s.client j = some (fd, uid) → fd ∉ s.reads

theorem agrees_listening (listenfd : ℕ) : Agrees (listening listenfd) := by
  refine ⟨fun fd => ?_, nofun, fun fd hfd => ?_, nofun, Int.negSucc_lt_zero 0, nofun⟩
  · constructor
    · exact fun hfd => Or.inl (Finset.mem_singleton.mp hfd)
    · rintro (rfl | ⟨i, uid, hconn⟩)
      · exact Finset.mem_singleton_self _
      · cases hconn
  · exact (Finset.mem_singleton.mp hfd).le

theorem Agrees.accept {s s' : SelectServer} (h : Agrees s) {clifd uid : ℕ}
    (hlisten : clifd ≠ s.listenfd) (hfree : s.conns clifd = none)
    (hs : s.accept clifd uid = some s') : Agrees s' := by
  obtain ⟨i, client', hadd, hlen, hlt, hnone, -, hnew⟩ := clientAdd_spec s.client clifd uid
  obtain ⟨⟨i', client''⟩, hadd', hs⟩ := Option.bind_eq_some_iff.mp hs
  cases hadd.symm.trans hadd'
  cases hs
  -- an entry is the new one, or an old one with another descriptor
  have hcases : ∀ j fd v, connection client' j = some (fd, v) →
      (j = i ∧ fd = clifd ∧ v = some uid) ∨
        (j ≠ i ∧ connection s.client j = some (fd, v) ∧ fd ≠ clifd) := by
    intro j fd v hj
    rw [hnew] at hj
    by_cases hji : j = i
    · subst hji
      rw [Function.update_self] at hj
      obtain ⟨rfl, rfl⟩ := Prod.mk.inj (Option.some.inj hj)
      exact Or.inl ⟨rfl, rfl, rfl⟩
    · rw [Function.update_of_ne hji] at hj
      refine Or.inr ⟨hji, hj, ?_⟩
      rintro rfl
      obtain ⟨-, u, -, hu⟩ := h.accepted j fd v hj
      cases hfree.symm.trans hu
  have hself : connection client' i = some (clifd, some uid) := by
    rw [hnew, Function.update_self]
  have hold : ∀ j fd v, connection s.client j = some (fd, v) →
      connection client' j = some (fd, v) := by
    intro j fd v hj
    have hji : j ≠ i := by
      rintro rfl
      cases hnone.symm.trans hj
    rw [hnew, Function.update_of_ne hji]
    exact hj
  refine ⟨fun fd => ?_, fun j k fd u v hj hk => ?_, fun fd hfd => ?_, fun j v hj => ?_, ?_,
    fun j fd v hj => ?_⟩
  · simp only [Finset.mem_insert, h.allset]
    constructor
    · rintro (rfl | rfl | ⟨j, v, hj⟩)
      · exact Or.inr ⟨i, some uid, hself⟩
      · exact Or.inl rfl
      · exact Or.inr ⟨j, v, hold j fd v hj⟩
    · rintro (rfl | ⟨j, v, hj⟩)
      · exact Or.inr (Or.inl rfl)
      · rcases hcases j fd v hj with ⟨-, rfl, -⟩ | ⟨-, hj, -⟩
        · exact Or.inl rfl
        · exact Or.inr (Or.inr ⟨j, v, hj⟩)
  · rcases hcases j fd u hj with ⟨rfl, rfl, -⟩ | ⟨-, hj, hne⟩
    · rcases hcases k fd v hk with ⟨rfl, -, -⟩ | ⟨-, -, hne⟩
      · rfl
      · exact absurd rfl hne
    · rcases hcases k fd v hk with ⟨-, rfl, -⟩ | ⟨-, hk, -⟩
      · exact absurd rfl hne
      · exact h.distinct j k fd u v hj hk
  · simp only [Finset.mem_insert] at hfd
    simp only
    rcases hfd with rfl | hfd
    · split <;> omega
    · have := h.maxfd fd hfd
      split <;> omega
  · obtain ⟨fd, u⟩ := v
    simp only
    rcases hcases j fd u hj with ⟨rfl, -, -⟩ | ⟨-, hj, -⟩
    · split <;> omega
    · have := h.maxi j _ hj
      split <;> omega
  · have := h.size
    simp only
    split <;> omega
  · rcases hcases j fd v hj with ⟨rfl, rfl, rfl⟩ | ⟨-, hj, hne⟩
    · exact ⟨hlisten, uid, rfl, Function.update_self ..⟩
    · obtain ⟨hne', u, hv, hu⟩ := h.accepted j fd v hj
      exact ⟨hne', u, hv, (Function.update_of_ne hne _ _).trans hu⟩

theorem Agrees.closed {s s' : SelectServer} (h : Agrees s) {i clifd : ℕ} {uid : Option ℕ}
    (hi : connection s.client i = some (clifd, uid)) (hs : s.closed clifd = some s') :
    Agrees s' ∧ s'.client.length = s.client.length ∧
      connection s'.client = Function.update (connection s.client) i none ∧
      s'.index = s.index ∧ s'.reads = s.reads ∧ s'.rset = s.rset := by
  obtain ⟨client', hdel, hlen, hnew, -⟩ :=
    clientDel_spec hi fun j w hj => h.distinct j i clifd w uid hj hi
  obtain ⟨client'', hdel', hs⟩ := Option.bind_eq_some_iff.mp hs
  cases hdel.symm.trans hdel'
  cases hs
  have hold : ∀ j fd v, connection client' j = some (fd, v) →
      connection s.client j = some (fd, v) ∧ fd ≠ clifd := by
    intro j fd v hj
    rw [hnew] at hj
    by_cases hji : j = i
    · rw [hji, Function.update_self] at hj
      cases hj
    · rw [Function.update_of_ne hji] at hj
      refine ⟨hj, ?_⟩
      rintro rfl
      exact hji (h.distinct j i fd v uid hj hi)
  refine ⟨⟨fun fd => ?_, fun j k fd u v hj hk => ?_, fun fd hfd => ?_, fun j v hj => ?_, ?_,
    fun j fd v hj => ?_⟩, hlen, hnew, rfl, rfl, rfl⟩
  · simp only [Finset.mem_erase, h.allset]
    constructor
    · rintro ⟨hne, rfl | ⟨j, v, hj⟩⟩
      · exact Or.inl rfl
      · refine Or.inr ⟨j, v, ?_⟩
        have hji : j ≠ i := by
          rintro rfl
          exact hne (Prod.mk.inj (Option.some.inj (hj.symm.trans hi))).1
        rw [hnew, Function.update_of_ne hji]
        exact hj
    · rintro (rfl | ⟨j, v, hj⟩)
      · exact ⟨(h.accepted i clifd uid hi).1.symm, Or.inl rfl⟩
      · obtain ⟨hj, hne⟩ := hold j fd v hj
        exact ⟨hne, Or.inr ⟨j, v, hj⟩⟩
  · exact h.distinct j k fd u v (hold j fd u hj).1 (hold k fd v hk).1
  · exact h.maxfd fd (Finset.mem_of_mem_erase hfd)
  · exact h.maxi j v (hold j v.1 v.2 hj).1
  · simp only [hlen]
    exact h.size
  · obtain ⟨hj, hne⟩ := hold j fd v hj
    obtain ⟨hne', u, hv, hu⟩ := h.accepted j fd v hj
    exact ⟨hne', u, hv, (Function.update_of_ne hne _ _).trans hu⟩

/-- The client at the index of the loop has been read. -/
theorem Reading.read {s s' : SelectServer} {i clifd : ℕ} {uid : Option ℕ} (h : Reading s i)
    (hagrees : Agrees s) (hi : connection s.client i = some (clifd, uid)) (hmem : clifd ∈ s.rset)
    (hreads : s'.reads = s.reads ++ [clifd]) (hrset : s'.rset = s.rset)
    (hconn : ∀ j, j ≠ i → connection s'.client j = connection s.client j) :
    Reading s' (i + 1) := by
  refine ⟨?_, fun fd hfd => ?_, fun fd hfd hnot => ?_, fun j fd v hj hconn' => ?_⟩
  · rw [hreads, List.nodup_append]
    refine ⟨h.nodup, List.nodup_singleton clifd, fun a ha b hb => ?_⟩
    rintro rfl
    exact h.done i clifd uid (le_refl i) hi (List.mem_singleton.mp hb ▸ ha)
  · rw [hreads, List.mem_append, List.mem_singleton] at hfd
    rw [hrset]
    rcases hfd with hfd | rfl
    · exact h.ready fd hfd
    · exact hmem
  · rw [hreads, List.mem_append, List.mem_singleton, not_or] at hnot
    rw [hrset] at hfd
    obtain ⟨j, v, hj, hc⟩ := h.waiting fd hfd hnot.1
    have hji : j ≠ i := by
      rintro rfl
      exact hnot.2 (Prod.mk.inj (Option.some.inj (hc.symm.trans hi))).1
    exact ⟨j, v, Nat.succ_le_of_lt (lt_of_le_of_ne hj hji.symm), (hconn j hji).trans hc⟩
  · have hji : j ≠ i := (Nat.lt_of_succ_le hj).ne'
    rw [hconn j hji] at hconn'
    rw [hreads, List.mem_append, List.mem_singleton, not_or]
    refine ⟨h.done j fd v (Nat.le_of_succ_le hj) hconn', ?_⟩
    rintro rfl
    exact hji (hagrees.distinct j i fd v uid hconn' hi)

/-- The invariant of the server. -/
def Ok (s : SelectServer) : Prop := Agrees s ∧ ∀ i, s.index = some i → Reading s i

theorem Ok.serve {s s' : SelectServer} {i : ℕ} {recv : Recv} {req : Option Request} (h : Ok s)
    (hi : s.index = some i) (hs : s.serve i recv = some (s', req)) : Ok s' := by
  obtain ⟨hagrees, hreading⟩ := h
  have hread := hreading i hi
  rcases serve_cases hs with ⟨rfl, -, hskip⟩ | ⟨clifd, uid, hc, hmem, ⟨hclosed, -⟩ | ⟨buf, rfl, -⟩⟩
  · refine ⟨⟨hagrees.1, hagrees.2, hagrees.3, hagrees.4, hagrees.5, hagrees.6⟩, fun i' hi' => ?_⟩
    obtain rfl := Option.some.inj hi'
    refine ⟨hread.nodup, hread.ready, fun fd hfd hnot => ?_, fun j fd v hj => ?_⟩
    · obtain ⟨j, v, hj, hc⟩ := hread.waiting fd hfd hnot
      have hji : j ≠ i := by
        rintro rfl
        exact hskip fd v hc hfd
      exact ⟨j, v, Nat.succ_le_of_lt (lt_of_le_of_ne hj hji.symm), hc⟩
    · exact hread.done j fd v (Nat.le_of_succ_le hj)
  · have hagrees₁ : Agrees { s with index := some (i + 1), reads := s.reads ++ [clifd] } :=
      ⟨hagrees.1, hagrees.2, hagrees.3, hagrees.4, hagrees.5, hagrees.6⟩
    obtain ⟨hagrees', -, hconn, hindex, hreads, hrset⟩ := hagrees₁.closed hc hclosed
    refine ⟨hagrees', fun i' hi' => ?_⟩
    obtain rfl := Option.some.inj (hindex.symm.trans hi')
    refine hread.read hagrees hc hmem hreads hrset fun j hj => ?_
    rw [hconn, Function.update_of_ne hj]
  · refine ⟨⟨hagrees.1, hagrees.2, hagrees.3, hagrees.4, hagrees.5, hagrees.6⟩, fun i' hi' => ?_⟩
    obtain rfl := Option.some.inj hi'
    exact hread.read hagrees hc hmem rfl rfl fun _ _ => rfl

theorem Ok.step {s s' : SelectServer} {a : SelectAction} {req : Option Request} (h : Ok s)
    (hs : s.step a = some (s', req)) : Ok s' := by
  rcases step_cases hs with ⟨clifd, uid, hidle, hlisten, hfree, hs, -⟩ |
    ⟨rset, hidle, hsub, hlisten, rfl, -⟩ | ⟨i, recv, hi, -, hs⟩ | ⟨i, hi, rfl, -⟩
  · refine ⟨h.1.accept hlisten hfree hs, fun i hi => ?_⟩
    obtain ⟨⟨j, client⟩, -, hs⟩ := Option.bind_eq_some_iff.mp hs
    cases hs
    cases hidle.symm.trans hi
  · obtain ⟨hagrees, -⟩ := h
    refine ⟨⟨hagrees.1, hagrees.2, hagrees.3, hagrees.4, hagrees.5, hagrees.6⟩, fun i hi => ?_⟩
    obtain rfl := Option.some.inj hi
    refine ⟨List.nodup_nil, nofun, fun fd hfd _ => ?_, nofun⟩
    -- what select reports is in the descriptor set, so it belongs to a client
    rcases (hagrees.allset fd).mp (hsub fd hfd) with rfl | ⟨j, uid, hj⟩
    · exact absurd hfd hlisten
    · exact ⟨j, uid, Nat.zero_le j, hj⟩
  · exact h.serve hi hs
  · obtain ⟨hagrees, -⟩ := h
    exact ⟨⟨hagrees.1, hagrees.2, hagrees.3, hagrees.4, hagrees.5, hagrees.6⟩, nofun⟩

/-- One step of the server. -/
def Step (s s' : SelectServer) : Prop := ∃ a req, s.step a = some (s', req)

theorem ok_reach {listenfd : ℕ} {s : SelectServer}
    (h : Relation.ReflTransGen Step (listening listenfd) s) : Ok s := by
  induction h with
  | refl => exact ⟨agrees_listening listenfd, nofun⟩
  | tail _ hs ih =>
    obtain ⟨a, req, hs⟩ := hs
    exact ih.step hs

/-- In every run, at the top of the loop, the descriptors in allset are those of
the live entries and the listening one, the entries have different descriptors,
and maxfd and maxi are bounds for them. The loop over the clients stays inside
the array, finds in it what it deletes, passes the user ID of the connection to
handle_request, and has read exactly the descriptors that select reported, each
once, when it is done. -/
theorem select_invariant {listenfd : ℕ} {s : SelectServer}
    (h : Relation.ReflTransGen Step (listening listenfd) s) :
    (s.index = none →
      (∀ fd, fd ∈ s.allset ↔ fd = s.listenfd ∨ ∃ i uid, connection s.client i = some (fd, uid)) ∧
      (∀ i j fd u v, connection s.client i = some (fd, u) → connection s.client j = some (fd, v) →
        i = j) ∧
      (∀ fd ∈ s.allset, fd ≤ s.maxfd) ∧
      (∀ i v, connection s.client i = some v → (i : ℤ) ≤ s.maxi) ∧ s.maxi < s.client.length) ∧
    (∀ i : ℕ, s.index = some i → (i : ℤ) ≤ s.maxi → i < s.client.length ∧
      ∀ fd uid, connection s.client i = some (fd, uid) → (clientDel s.client fd).isSome) ∧
    (∀ i : ℕ, s.index = some i → s.maxi < i →
      s.reads.Nodup ∧ ∀ fd, fd ∈ s.reads ↔ fd ∈ s.rset) ∧
    ∀ a s' req, s.step a = some (s', some req) →
      ∃ uid, req.uid = some uid ∧ s.conns req.clifd = some uid := by
  obtain ⟨hagrees, hreading⟩ := ok_reach h
  refine ⟨fun _ => ⟨hagrees.allset, hagrees.distinct, hagrees.maxfd, hagrees.maxi, hagrees.size⟩,
    fun i _ hle => ⟨?_, fun fd uid hc => ?_⟩, fun i hi hlt => ?_, fun a s' req hs => ?_⟩
  · exact Int.ofNat_lt.mp (lt_of_le_of_lt hle hagrees.size)
  · obtain ⟨client', hdel, -⟩ := clientDel_spec hc fun j w hj => hagrees.distinct j i fd w uid hj hc
    rw [hdel]
    rfl
  · have hread := hreading i hi
    refine ⟨hread.nodup, fun fd => ⟨hread.ready fd, fun hfd => ?_⟩⟩
    by_contra hnot
    obtain ⟨j, uid, hj, hc⟩ := hread.waiting fd hfd hnot
    have := hagrees.maxi j _ hc
    omega
  · rcases step_cases hs with ⟨_, _, _, _, _, _, hreq⟩ | ⟨_, _, _, _, _, hreq⟩ |
      ⟨i, recv, hi, -, hs⟩ | ⟨_, _, _, hreq⟩
    · cases hreq
    · cases hreq
    · rcases serve_cases hs with ⟨-, hreq, -⟩ | ⟨clifd, uid, hc, -, ⟨-, hreq⟩ | ⟨buf, -, hreq⟩⟩
      · cases hreq
      · cases hreq
      · obtain rfl := Option.some.inj hreq
        exact (hagrees.accepted i clifd uid hc).2
    · cases hreq

/-- Two clients connect, the first one closes its connection, and a third one
gets its descriptor and its place. -/
def reuse : List SelectAction :=
  [.select {3} (some (4, 10)), .select {3} (some (5, 20)), .select {4} none, .client .eof,
    .client .eof, .client .eof, .select {3} (some (4, 30)), .select {4, 5} none]

theorem select_invariant_reuse : ∃ s s' req, Relation.ReflTransGen Step (listening 3) s ∧
    s.step (.client (.data [0])) = some (s', some req) ∧ req.clifd = 4 ∧ req.uid = some 30 ∧
    s.conns 4 = some 30 := by
  have hrun : (steps (fun s a => (step s a).map Prod.fst) reuse (listening 3)).any (fun s =>
      (s.step (.client (.data [0]))).any fun r => r.2 == some ⟨[0], 4, some 30⟩) = true := by
    decide +kernel
  obtain ⟨s, hs, hstep⟩ := (Option.any_eq_true _ _).mp hrun
  obtain ⟨⟨s', req⟩, hstep, hreq⟩ := (Option.any_eq_true _ _).mp hstep
  obtain rfl : req = some ⟨[0], 4, some 30⟩ := eq_of_beq hreq
  have hreach : Relation.ReflTransGen Step (listening 3) s := by
    refine Relation.ReflTransGen.mono ?_ _ _ (reach_of_steps hs)
    rintro s₁ s₂ ⟨a, ha⟩
    obtain ⟨⟨s₃, req⟩, hstep, rfl⟩ := Option.map_eq_some_iff.mp ha
    exact ⟨a, req, hstep⟩
  obtain ⟨uid, huid, hconn⟩ := (select_invariant hreach).2.2.2 _ _ _ hstep
  obtain rfl := Option.some.inj huid
  exact ⟨s, s', _, hreach, hstep, rfl, rfl, hconn⟩

end SelectServer

end Apue.Open
