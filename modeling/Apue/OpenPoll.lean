import Apue.OpenClients
import Apue.Programs

/-!
The loop of the open server that waits in poll. It keeps the descriptors in an
array of its own, which it packs by moving the last entry into the place of one
that is closed, and it uses an index into this array for the table of clients
as well. The table is never packed, so the two agree only as long as the client
that leaves is the last one.
-/
namespace Apue.Open

open Decimal Programs

structure Revents where
  pollin : Bool
  pollhup : Bool
  deriving DecidableEq

/-- `struct pollfd`; its field events is always POLLIN. -/
structure PollFd where
  fd : Option ℕ
  revents : Revents
  deriving DecidableEq

def unused : PollFd := ⟨none, ⟨false, false⟩⟩

def growPollfd (pollfd : List PollFd) : List PollFd := pollfd ++ List.replicate NALLOC unused

/-- The variables of loop, and the connections that are open, each with the user
ID that serv_accept returned for it. The variable maxfd is the length of the
array. -/
structure PollServer where
  conns : ℕ → Option ℕ
  listenfd : ℕ
  client : List Client
  pollfd : List PollFd
  numfd : ℕ
  /-- The index of the loop over the entries, or the top of the outer loop. -/
  index : Option ℕ

inductive PollAction
  | poll (revents : ℕ → Revents) (accepted : Option (ℕ × ℕ))
  | entry (recv : Recv)

namespace PollServer

/-- The server after serv_listen. -/
def start (listenfd : ℕ) : Option PollServer := do
  let (_, client) ← clientAdd [] listenfd 0
  return {
    conns := fun _ => none
    listenfd := listenfd
    client := client
    pollfd := (List.replicate NALLOC unused).set 0 ⟨some listenfd, ⟨false, false⟩⟩
    numfd := 1
    index := none }

/-- poll fills in the revents of the first numfd entries. -/
def polled (s : PollServer) (revents : ℕ → Revents) : List PollFd :=
  s.pollfd.mapIdx fun i p => if i < s.numfd then { p with revents := revents i } else p

/-- A new client. -/
def accept (s : PollServer) (clifd uid : ℕ) : Option PollServer := do
  let (_, client) ← clientAdd s.client clifd uid
  let pollfd := if s.numfd = s.pollfd.length then growPollfd s.pollfd else s.pollfd
  return { s with
    conns := Function.update s.conns clifd (some uid)
    client := client
    pollfd := pollfd.set s.numfd ⟨some clifd, ⟨false, false⟩⟩
    numfd := s.numfd + 1 }

/-- The client of entry `i` has closed the connection. The entry that is moved
to its place is looked at next. -/
def hungup (s : PollServer) (i fd : ℕ) : Option PollServer := do
  let client ← clientDel s.client fd
  let s := { s with
    conns := Function.update s.conns fd none
    client := client
    numfd := s.numfd - 1 }
  if i < s.numfd then do
    let last ← s.pollfd[s.numfd]?
    return { s with pollfd := s.pollfd.set i last, index := some i }
  else return { s with index := some (i + 1) }

/-- Whether entry `p` is closed. -/
def closes (p : PollFd) (recv : Recv) : Bool :=
  p.revents.pollhup || p.revents.pollin && match recv with
    | .eof => true
    | _ => false

/-- The body of the loop over the entries, with the call of handle_request that
it makes. -/
def serve (s : PollServer) (i : ℕ) (recv : Recv) : Option (PollServer × Option Request) := do
  let p ← s.pollfd[i]?
  let fd ← p.fd
  if closes p recv then do
    let s ← s.hungup i fd
    return (s, none)
  else if p.revents.pollin then
    match recv with
    | .data buf => do
      let c ← s.client[i]?
      return ({ s with index := some (i + 1) }, some ⟨buf, fd, c.uid⟩)
    | _ => none
  else return ({ s with index := some (i + 1) }, none)

def step (s : PollServer) : PollAction → Option (PollServer × Option Request)
  | .poll revents accepted =>
    if s.index = none then
      let s := { s with pollfd := s.polled revents, index := some 1 }
      if (revents 0).pollin then
        match accepted with
        | none => none
        | some (clifd, uid) =>
          if clifd ≠ s.listenfd ∧ s.conns clifd = none then do
            let s ← s.accept clifd uid
            return (s, none)
          else none
      else some (s, none)
    else none
  | .entry recv =>
    match s.index with
    | none => none
    | some i =>
      if i < s.numfd then if recv.Possible then s.serve i recv else none
      else some ({ s with index := none }, none)

/-- What a pass through the body of the loop can do. -/
theorem serve_cases {s s' : PollServer} {i : ℕ} {recv : Recv} {req : Option Request}
    (h : s.serve i recv = some (s', req)) :
    ∃ p fd, s.pollfd[i]? = some p ∧ p.fd = some fd ∧
      ((closes p recv = true ∧ s.hungup i fd = some s' ∧ req = none) ∨
        (s' = { s with index := some (i + 1) } ∧
          (req = none ∨ ∃ buf c, s.client[i]? = some c ∧ req = some ⟨buf, fd, c.uid⟩))) := by
  obtain ⟨p, hp, h⟩ := Option.bind_eq_some_iff.mp h
  obtain ⟨fd, hfd, h⟩ := Option.bind_eq_some_iff.mp h
  refine ⟨p, fd, hp, hfd, ?_⟩
  split at h
  · rename_i hcloses
    obtain ⟨s₁, hs₁, h⟩ := Option.bind_eq_some_iff.mp h
    cases h
    exact Or.inl ⟨hcloses, hs₁, rfl⟩
  · split at h
    · cases recv with
      | data buf =>
        obtain ⟨c, hc, h⟩ := Option.bind_eq_some_iff.mp h
        cases h
        exact Or.inr ⟨rfl, Or.inr ⟨buf, c, hc, rfl⟩⟩
      | error => cases h
      | eof => cases h
    · cases h
      exact Or.inr ⟨rfl, Or.inl rfl⟩

/-- What one step can do. -/
theorem step_cases {s s' : PollServer} {a : PollAction} {req : Option Request}
    (h : s.step a = some (s', req)) :
    (∃ revents clifd uid, s.index = none ∧ clifd ≠ s.listenfd ∧ s.conns clifd = none ∧
        accept { s with pollfd := s.polled revents, index := some 1 } clifd uid = some s' ∧
        req = none) ∨
      (∃ revents, s.index = none ∧ s' = { s with pollfd := s.polled revents, index := some 1 } ∧
        req = none) ∨
      (∃ i recv, a = .entry recv ∧ s.index = some i ∧ i < s.numfd ∧
        s.serve i recv = some (s', req)) ∨
      ∃ i, s.index = some i ∧ s' = { s with index := none } ∧ req = none := by
  cases a with
  | poll revents accepted =>
    simp only [step] at h
    split at h
    · rename_i hidle
      split at h
      · cases accepted with
        | none => cases h
        | some r =>
          obtain ⟨clifd, uid⟩ := r
          simp only at h
          split at h
          · rename_i hfree
            obtain ⟨s₁, hs₁, h⟩ := Option.bind_eq_some_iff.mp h
            cases h
            exact Or.inl ⟨revents, clifd, uid, hidle, hfree.1, hfree.2, hs₁, rfl⟩
          · cases h
      · cases h
        exact Or.inr (Or.inl ⟨revents, hidle, rfl, rfl⟩)
    · cases h
  | entry recv =>
    simp only [step] at h
    split at h
    · cases h
    · rename_i i hi
      split at h
      · rename_i hlt
        split at h
        · exact Or.inr (Or.inr (Or.inl ⟨i, recv, rfl, hi, hlt, h⟩))
        · cases h
      · cases h
        exact Or.inr (Or.inr (Or.inr ⟨i, hi, rfl, rfl⟩))

/-- The two arrays describe the same clients in the same order: the first numfd
entries of the table are those of the array of poll, and no others are used. -/
structure Aligned (s : PollServer) : Prop where
  entry : ∀ i < s.numfd, ∃ p fd uid, s.pollfd[i]? = some p ∧ p.fd = some fd ∧
    connection s.client i = some (fd, uid)
  unused : ∀ i, s.numfd ≤ i → connection s.client i = none
  distinct : ∀ i j fd u v, connection s.client i = some (fd, u) →
    connection s.client j = some (fd, v) → i = j
  listen : 1 ≤ s.numfd ∧ connection s.client 0 = some (s.listenfd, some 0)
  accepted : ∀ i fd uid, 1 ≤ i → connection s.client i = some (fd, uid) →
    ∃ u, uid = some u ∧ s.conns fd = some u
  index : ∀ i, s.index = some i → 1 ≤ i

theorem aligned_start {listenfd : ℕ} {s : PollServer} (h : start listenfd = some s) :
    Aligned s := by
  obtain ⟨i, client', hadd, -, -, -, hfirst, hnew⟩ := clientAdd_spec [] listenfd 0
  rw [start, hadd] at h
  cases h
  obtain rfl : i = 0 := by
    by_contra hi
    exact hfirst 0 (Nat.pos_of_ne_zero hi) rfl
  have hother : ∀ j, j ≠ 0 → connection client' j = none := by
    intro j hj
    rw [hnew, Function.update_of_ne hj]
    rfl
  have hself : connection client' 0 = some (listenfd, some 0) := by
    rw [hnew, Function.update_self]
  have hzero : ∀ j v, connection client' j = some v → j = 0 := by
    intro j v hj
    by_contra hne
    cases (hother j hne).symm.trans hj
  refine ⟨fun j hj => ?_, fun j hj => ?_, fun j k fd u v hj hk => ?_, ⟨le_refl 1, hself⟩,
    fun j fd uid hj hc => ?_, nofun⟩
  · obtain rfl : j = 0 := Nat.lt_one_iff.mp hj
    exact ⟨_, listenfd, some 0, rfl, rfl, hself⟩
  · exact hother j (Nat.one_le_iff_ne_zero.mp hj)
  · rw [hzero j _ hj, hzero k _ hk]
  · exact absurd (hzero j _ hc) (Nat.one_le_iff_ne_zero.mp hj)

/-- poll only fills in revents. -/
theorem Aligned.polled {s : PollServer} (h : Aligned s) (revents : ℕ → Revents) :
    Aligned { s with pollfd := s.polled revents, index := some 1 } := by
  refine ⟨fun i hi => ?_, h.unused, h.distinct, h.listen, h.accepted, fun i hi => ?_⟩
  · obtain ⟨p, fd, uid, hp, hfd, hc⟩ := h.entry i hi
    refine ⟨{ p with revents := revents i }, fd, uid, ?_, hfd, hc⟩
    have hlt : i < s.numfd := hi
    simp [PollServer.polled, List.getElem?_mapIdx, hp, hlt]
  · exact (Option.some.inj hi).le

theorem Aligned.accept {s s' : PollServer} (h : Aligned s) {clifd uid : ℕ}
    (hlisten : clifd ≠ s.listenfd) (hfree : s.conns clifd = none)
    (hs : s.accept clifd uid = some s') : Aligned s' := by
  obtain ⟨i, client', hadd, -, -, hnone, hfirst, hnew⟩ := clientAdd_spec s.client clifd uid
  obtain ⟨⟨i', client''⟩, hadd', hs⟩ := Option.bind_eq_some_iff.mp hs
  cases hadd.symm.trans hadd'
  cases hs
  -- the first available entry of the table comes right after the used ones
  obtain rfl : i = s.numfd := by
    refine le_antisymm (Nat.le_of_not_lt fun hlt => ?_) (Nat.le_of_not_lt fun hlt => ?_)
    · exact hfirst s.numfd hlt (h.unused s.numfd (le_refl _))
    · obtain ⟨p, fd, v, -, -, hc⟩ := h.entry i hlt
      cases hnone.symm.trans hc
  have hself : connection client' s.numfd = some (clifd, some uid) := by
    rw [hnew, Function.update_self]
  have hold : ∀ j, j ≠ s.numfd → connection client' j = connection s.client j := by
    intro j hj
    rw [hnew, Function.update_of_ne hj]
  have hfresh : ∀ j v, connection s.client j ≠ some (clifd, v) := by
    intro j v hj
    by_cases hzero : j = 0
    · subst hzero
      exact hlisten (Prod.mk.inj (Option.some.inj (hj.symm.trans h.listen.2))).1
    · obtain ⟨u, -, hu⟩ := h.accepted j clifd v (Nat.one_le_iff_ne_zero.mpr hzero) hj
      cases hfree.symm.trans hu
  have hlen : ∀ j < s.numfd, j < s.pollfd.length := by
    intro j hj
    obtain ⟨p, -, -, hp, -⟩ := h.entry j hj
    exact (List.getElem?_eq_some_iff.mp hp).1
  have hcap : s.numfd ≤ s.pollfd.length := by
    by_contra hlt
    exact absurd (hlen s.pollfd.length (Nat.lt_of_not_le hlt)) (lt_irrefl _)
  obtain ⟨pollfd, hpollfd, hroom, hkept⟩ : ∃ pollfd,
      (if s.numfd = s.pollfd.length then growPollfd s.pollfd else s.pollfd) = pollfd ∧
        s.numfd < pollfd.length ∧ ∀ j < s.numfd, pollfd[j]? = s.pollfd[j]? := by
    split
    · rename_i heq
      refine ⟨_, rfl, ?_, fun j hj => List.getElem?_append_left (hlen j hj)⟩
      rw [growPollfd, List.length_append, ← heq]
      exact Nat.lt_add_of_pos_right (by decide)
    · rename_i hne
      exact ⟨_, rfl, lt_of_le_of_ne hcap hne, fun _ _ => rfl⟩
  rw [hpollfd]
  refine ⟨fun j hj => ?_, fun j hj => ?_, fun j k fd u v hj hk => ?_, ⟨Nat.succ_pos _, ?_⟩,
    fun j fd v hj hc => ?_, h.index⟩
  · simp only at hj ⊢
    rcases Nat.lt_succ_iff_lt_or_eq.mp hj with hj | rfl
    · obtain ⟨p, fd, v, hp, hfd, hc⟩ := h.entry j hj
      refine ⟨p, fd, v, ?_, hfd, (hold j hj.ne).trans hc⟩
      rw [List.getElem?_set_ne hj.ne', hkept j hj]
      exact hp
    · exact ⟨_, clifd, some uid, List.getElem?_set_self hroom, rfl, hself⟩
  · have hlt : s.numfd < j := hj
    exact (hold j hlt.ne').trans (h.unused j hlt.le)
  · by_cases hj' : j = s.numfd
    · by_cases hk' : k = s.numfd
      · exact hj'.trans hk'.symm
      · rw [hj', hself] at hj
        obtain ⟨rfl, -⟩ := Prod.mk.inj (Option.some.inj hj)
        exact absurd ((hold k hk').symm.trans hk) (hfresh k v)
    · rw [hold j hj'] at hj
      by_cases hk' : k = s.numfd
      · rw [hk', hself] at hk
        obtain ⟨rfl, -⟩ := Prod.mk.inj (Option.some.inj hk)
        exact absurd hj (hfresh j u)
      · rw [hold k hk'] at hk
        exact h.distinct j k fd u v hj hk
  · exact (hold 0 (Nat.one_le_iff_ne_zero.mp h.listen.1).symm).trans h.listen.2
  · by_cases hj' : j = s.numfd
    · rw [hj', hself] at hc
      obtain ⟨rfl, rfl⟩ := Prod.mk.inj (Option.some.inj hc)
      exact ⟨uid, rfl, Function.update_self ..⟩
    · rw [hold j hj'] at hc
      obtain ⟨u, hv, hu⟩ := h.accepted j fd v hj hc
      have hne : fd ≠ clifd := by
        rintro rfl
        exact hfresh j v hc
      exact ⟨u, hv, (Function.update_of_ne hne _ _).trans hu⟩

/-- The last entry is closed. -/
theorem Aligned.hungup {s s' : PollServer} (h : Aligned s) {i fd : ℕ} {p : PollFd} (hi : 1 ≤ i)
    (hlast : i + 1 = s.numfd) (hp : s.pollfd[i]? = some p) (hfd : p.fd = some fd)
    (hs : s.hungup i fd = some s') : Aligned s' := by
  obtain ⟨p', fd', uid, hp', hfd', hc⟩ := h.entry i (hlast ▸ Nat.lt_succ_self i)
  cases hp.symm.trans hp'
  cases hfd.symm.trans hfd'
  obtain ⟨client', hdel, -, hnew, -⟩ :=
    clientDel_spec hc fun j w hj => h.distinct j i fd w uid hj hc
  obtain ⟨client'', hdel', hs⟩ := Option.bind_eq_some_iff.mp hs
  cases hdel.symm.trans hdel'
  have hnot : ¬ i < s.numfd - 1 := by omega
  simp only [if_neg hnot] at hs
  cases hs
  have hold : ∀ j, j ≠ i → connection client' j = connection s.client j := by
    intro j hj
    rw [hnew, Function.update_of_ne hj]
  have hgone : connection client' i = none := by
    rw [hnew, Function.update_self]
  have hsub : ∀ j v, connection client' j = some v → j ≠ i ∧ connection s.client j = some v := by
    intro j v hj
    have hji : j ≠ i := by
      rintro rfl
      cases hgone.symm.trans hj
    exact ⟨hji, (hold j hji).symm.trans hj⟩
  refine ⟨fun j hj => ?_, fun j hj => ?_, fun j k fd' u v hj hk => ?_, ⟨?_, ?_⟩,
    fun j fd' v hj hc' => ?_, fun j hj => ?_⟩
  · simp only at hj ⊢
    obtain ⟨q, fd', v, hq, hfd', hc'⟩ := h.entry j (by omega)
    exact ⟨q, fd', v, hq, hfd', (hold j (by omega)).trans hc'⟩
  · simp only at hj ⊢
    by_cases hji : j = i
    · rw [hji]
      exact hgone
    · exact (hold j hji).trans (h.unused j (by omega))
  · exact h.distinct j k fd' u v (hsub j _ hj).2 (hsub k _ hk).2
  · simp only
    omega
  · exact (hold 0 (by omega)).trans h.listen.2
  · obtain ⟨hji, hcj⟩ := hsub j _ hc'
    obtain ⟨u, hv, hu⟩ := h.accepted j fd' v hj hcj
    have hne : fd' ≠ fd := by
      rintro rfl
      exact hji (h.distinct j i fd' v uid hcj hc)
    exact ⟨u, hv, (Function.update_of_ne hne _ _).trans hu⟩
  · obtain rfl := Option.some.inj hj
    exact Nat.succ_pos i

/-- The step does not close an entry that has others after it, so nothing is moved. -/
def unmoved (s : PollServer) : PollAction → Bool
  | .poll _ _ => true
  | .entry recv => s.index.all fun i =>
    decide (s.numfd ≤ i + 1) || (s.pollfd[i]?).all fun p => !closes p recv

theorem Aligned.step {s s' : PollServer} {a : PollAction} {req : Option Request} (h : Aligned s)
    (hunmoved : s.unmoved a = true) (hs : s.step a = some (s', req)) : Aligned s' := by
  rcases step_cases hs with ⟨revents, clifd, uid, hidle, hlisten, hfree, hs, -⟩ |
    ⟨revents, hidle, rfl, -⟩ | ⟨i, recv, rfl, hi, hlt, hs⟩ | ⟨i, hi, rfl, -⟩
  · exact (h.polled revents).accept hlisten hfree hs
  · exact h.polled revents
  · obtain ⟨p, fd, hp, hfd, ⟨hcloses, hs, -⟩ | ⟨rfl, -⟩⟩ := serve_cases hs
    · simp only [unmoved, hi, hp, Option.all_some, hcloses, Bool.not_true, Bool.or_false,
        decide_eq_true_eq] at hunmoved
      exact h.hungup (h.index i hi) (le_antisymm hlt hunmoved) hp hfd hs
    · exact ⟨h.entry, h.unused, h.distinct, h.listen, h.accepted, fun j hj =>
        Option.some.inj hj ▸ Nat.succ_pos i⟩
  · exact ⟨h.entry, h.unused, h.distinct, h.listen, h.accepted, nofun⟩

/-- One step of the server. -/
def Step (s s' : PollServer) : Prop := ∃ a req, s.step a = some (s', req)

/-- One step of the server that moves no entry. -/
def UnmovedStep (s s' : PollServer) : Prop :=
  ∃ a req, s.unmoved a = true ∧ s.step a = some (s', req)

theorem aligned_reach {listenfd : ℕ} {s₀ s : PollServer} (hstart : start listenfd = some s₀)
    (h : Relation.ReflTransGen UnmovedStep s₀ s) : Aligned s := by
  induction h with
  | refl => exact aligned_start hstart
  | tail _ hs ih =>
    obtain ⟨a, req, hunmoved, hs⟩ := hs
    exact ih.step hunmoved hs

/-- In every run in which only the last entry of the array of poll is closed, the
user ID passed to handle_request is that of the connection. -/
theorem poll_uid {listenfd : ℕ} {s₀ s : PollServer} (hstart : start listenfd = some s₀)
    (h : Relation.ReflTransGen UnmovedStep s₀ s) {a : PollAction} {s' : PollServer} {req : Request}
    (hs : s.step a = some (s', some req)) :
    ∃ uid, req.uid = some uid ∧ s.conns req.clifd = some uid := by
  have haligned := aligned_reach hstart h
  rcases step_cases hs with ⟨_, _, _, _, _, _, _, hreq⟩ | ⟨_, _, _, hreq⟩ |
    ⟨i, recv, -, hi, hlt, hs⟩ | ⟨_, _, _, hreq⟩
  · cases hreq
  · cases hreq
  · obtain ⟨p, fd, hp, hfd, ⟨-, -, hreq⟩ | ⟨-, hreq | ⟨buf, c, hc, hreq⟩⟩⟩ := serve_cases hs
    · cases hreq
    · cases hreq
    · obtain rfl := Option.some.inj hreq
      obtain ⟨p', fd', uid, hp', hfd', hconn⟩ := haligned.entry i hlt
      cases hp.symm.trans hp'
      cases hfd.symm.trans hfd'
      cases hc.symm.trans (connection_eq_some.mp hconn)
      exact haligned.accepted i fd uid (haligned.index i hi) hconn
  · cases hreq

/-- poll reports the given entries. -/
def report (l : List (ℕ × Revents)) (i : ℕ) : Revents := (l.lookup i).getD ⟨false, false⟩

/-- A client connects. -/
def connects (clifd uid : ℕ) : PollAction := .poll (report [(0, ⟨true, false⟩)]) (some (clifd, uid))

/-- The second of two clients leaves, a third one gets its descriptor, and sends
a request. -/
theorem poll_uid_reuse : ∃ s₀ s s' req, start 3 = some s₀ ∧
    Relation.ReflTransGen UnmovedStep s₀ s ∧
    s.step (.entry (.data [0])) = some (s', some req) ∧ req.clifd = 5 ∧ req.uid = some 30 ∧
    s.conns 5 = some 30 := by
  have hrun : (start 3).any (fun s₀ => (steps (fun s a =>
      if s.unmoved a then (step s a).map Prod.fst else none)
      [connects 4 10, .entry .eof, .entry .eof, connects 5 20, .entry .eof, .entry .eof, .entry .eof,
        .poll (report [(2, ⟨true, false⟩)]) none, .entry .eof, .entry .eof, .entry .eof,
        connects 5 30, .entry .eof, .entry .eof, .entry .eof,
        .poll (report [(2, ⟨true, false⟩)]) none, .entry .eof] s₀).any fun s =>
      (s.step (.entry (.data [0]))).any fun r => r.2 == some ⟨[0], 5, some 30⟩) = true := by
    decide +kernel
  obtain ⟨s₀, hstart, hrun⟩ := (Option.any_eq_true _ _).mp hrun
  obtain ⟨s, hs, hstep⟩ := (Option.any_eq_true _ _).mp hrun
  obtain ⟨⟨s', req⟩, hstep, hreq⟩ := (Option.any_eq_true _ _).mp hstep
  obtain rfl : req = some ⟨[0], 5, some 30⟩ := eq_of_beq hreq
  have hreach : Relation.ReflTransGen UnmovedStep s₀ s := by
    refine Relation.ReflTransGen.mono ?_ _ _ (reach_of_steps hs)
    rintro s₁ s₂ ⟨a, ha⟩
    split at ha
    · obtain ⟨⟨s₃, req⟩, hstep, rfl⟩ := Option.map_eq_some_iff.mp ha
      exact ⟨a, req, ‹_›, hstep⟩
    · cases ha
  obtain ⟨uid, huid, hconn⟩ := poll_uid hstart hreach hstep
  obtain rfl := Option.some.inj huid
  exact ⟨s₀, s, s', _, hstart, hreach, hstep, rfl, rfl, hconn⟩

/-- The first of two clients leaves. The request of the second one is then
attributed to the user of the first. -/
theorem poll_uid_wrong :
    ¬ ∀ listenfd s₀ s a s' req, start listenfd = some s₀ → Relation.ReflTransGen Step s₀ s →
      s.step a = some (s', some req) → ∃ uid, req.uid = some uid ∧ s.conns req.clifd = some uid := by
  intro hall
  have hrun : (start 3).any (fun s₀ => (steps (fun s a => (step s a).map Prod.fst)
      [connects 4 10, .entry .eof, .entry .eof, connects 5 20, .entry .eof, .entry .eof, .entry .eof,
        .poll (report [(1, ⟨true, false⟩)]) none, .entry .eof, .entry .eof, .entry .eof,
        .poll (report [(1, ⟨true, false⟩)]) none] s₀).any fun s => s.conns 5 == some 20 &&
      (s.step (.entry (.data [0]))).any fun r => r.2 == some ⟨[0], 5, some 10⟩) = true := by
    decide +kernel
  obtain ⟨s₀, hstart, hrun⟩ := (Option.any_eq_true _ _).mp hrun
  obtain ⟨s, hs, hcheck⟩ := (Option.any_eq_true _ _).mp hrun
  obtain ⟨hconn, hstep⟩ := Bool.and_eq_true_iff.mp hcheck
  obtain ⟨⟨s', req⟩, hstep, hreq⟩ := (Option.any_eq_true _ _).mp hstep
  obtain rfl : req = some ⟨[0], 5, some 10⟩ := eq_of_beq hreq
  have hreach : Relation.ReflTransGen Step s₀ s := by
    refine Relation.ReflTransGen.mono ?_ _ _ (reach_of_steps hs)
    rintro s₁ s₂ ⟨a, ha⟩
    obtain ⟨⟨s₃, req⟩, hstep, rfl⟩ := Option.map_eq_some_iff.mp ha
    exact ⟨a, req, hstep⟩
  obtain ⟨uid, huid, hconn'⟩ := hall 3 s₀ s _ s' _ hstart hreach hstep
  obtain rfl := Option.some.inj huid
  cases (eq_of_beq hconn).symm.trans hconn'

end PollServer

end Apue.Open
