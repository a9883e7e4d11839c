import Apue.Decimal
import Mathlib.Data.List.Basic
import Mathlib.Logic.Function.Basic
import Mathlib.Order.Nat

/-!
The table of clients of the open server. It is an array that grows by NALLOC
entries at a time; an entry whose descriptor is -1 is available, and a new
client gets the first available one. Seen from outside, the table is a map from
indices to connections, which client_add extends and client_del shrinks.
-/
namespace Apue.Open

open Decimal

def MAXLINE : ℕ := 4096

/-- What a read on the connection of a client returns. -/
inductive Recv
  | error
  | eof
  | data (buf : List Byte)

def Recv.Possible : Recv → Prop
  | data buf => buf ≠ [] ∧ buf.length ≤ MAXLINE
  | _ => True

instance (recv : Recv) : Decidable recv.Possible :=
  match recv with
  | .data buf => inferInstanceAs (Decidable (buf ≠ [] ∧ buf.length ≤ MAXLINE))
  | .error => inferInstanceAs (Decidable True)
  | .eof => inferInstanceAs (Decidable True)

/-- The arguments of a call of handle_request. -/
structure Request where
  buf : List Byte
  clifd : ℕ
  uid : Option ℕ
  deriving DecidableEq

/-- `Client`; the descriptor -1 of an available entry is `none`. The user ID of
an entry that was never used is not initialised. -/
structure Client where
  fd : Option ℕ
  uid : Option ℕ
  deriving DecidableEq

def NALLOC : ℕ := 10

/-- client_size is the length of the array, and the array NULL is empty. -/
def clientAlloc (client : List Client) : List Client :=
  client ++ List.replicate NALLOC ⟨none, none⟩

/-- The loop of client_add over the array. -/
def clientSearch (client : List Client) (fd uid : ℕ) : Option (ℕ × List Client) := do
  let i ← client.findIdx? fun c => c.fd = none
  return (i, client.set i ⟨some fd, some uid⟩)

/-- client_add: after `goto again` the array is searched for the second time. -/
def clientAdd (client : List Client) (fd uid : ℕ) : Option (ℕ × List Client) :=
  let client := if client = [] then clientAlloc client else client
  clientSearch client fd uid <|> clientSearch (clientAlloc client) fd uid

/-- client_del; without a result it is log_quit that is called. -/
def clientDel (client : List Client) (fd : ℕ) : Option (List Client) := do
  let i ← client.findIdx? fun c => c.fd = some fd
  return client.modify i fun c => { c with fd := none }

/-- The connection in an entry of the array, with the user ID it was added with. -/
def connection (client : List Client) (i : ℕ) : Option (ℕ × Option ℕ) := do
  let c ← client[i]?
  let fd ← c.fd
  return (fd, c.uid)

variable {client client' : List Client} {fd uid i : ℕ}

theorem connection_eq_some {v : ℕ × Option ℕ} :
    connection client i = some v ↔ client[i]? = some ⟨some v.1, v.2⟩ := by
  obtain ⟨fd, uid⟩ := v
  constructor
  · intro h
    obtain ⟨⟨fd', uid'⟩, hc, h⟩ := Option.bind_eq_some_iff.mp h
    obtain ⟨fd'', rfl, h⟩ := Option.bind_eq_some_iff.mp h
    cases h
    exact hc
  · intro h
    simp [connection, h]

theorem connection_of_getElem {c : Client} (h : client[i]? = some c) (hfd : c.fd = some fd) :
    connection client i = some (fd, c.uid) := by
  obtain ⟨_, uid⟩ := c
  obtain rfl := hfd
  exact connection_eq_some.mpr h

theorem connection_of_available {c : Client} (h : client[i]? = some c) (hfd : c.fd = none) :
    connection client i = none := by
  simp [connection, h, hfd]

/-- New entries hold no connection. -/
theorem connection_clientAlloc (client : List Client) :
    connection (clientAlloc client) = connection client := by
  funext i
  by_cases hi : i < client.length
  · simp only [connection, clientAlloc, List.getElem?_append_left hi]
  · have hold : client[i]? = none := List.getElem?_eq_none (Nat.le_of_not_lt hi)
    simp only [connection, clientAlloc, List.getElem?_append_right (Nat.le_of_not_lt hi),
      List.getElem?_replicate, hold]
    split <;> rfl

theorem connection_set (hi : i < client.length) (uid : Option ℕ) :
    connection (client.set i ⟨some fd, uid⟩) =
      Function.update (connection client) i (some (fd, uid)) := by
  funext j
  by_cases hj : j = i
  · subst hj
    rw [Function.update_self]
    simp [connection, hi]
  · rw [Function.update_of_ne hj]
    simp only [connection, List.getElem?_set_ne (Ne.symm hj)]

theorem connection_release (client : List Client) (i : ℕ) :
    connection (client.modify i fun c => { c with fd := none }) =
      Function.update (connection client) i none := by
  funext j
  by_cases hj : j = i
  · subst hj
    rw [Function.update_self]
    simp only [connection, List.getElem?_modify_eq]
    cases client[j]? <;> rfl
  · rw [Function.update_of_ne hj]
    simp only [connection, List.getElem?_modify_ne _ _ (Ne.symm hj)]

/-- A search that succeeds takes the first available entry. -/
theorem clientSearch_spec (h : clientSearch client fd uid = some (i, client')) :
    client'.length = client.length ∧ i < client.length ∧ connection client i = none ∧
      (∀ j < i, connection client j ≠ none) ∧
      connection client' = Function.update (connection client) i (some (fd, some uid)) := by
  obtain ⟨i', hi, h⟩ := Option.bind_eq_some_iff.mp h
  cases h
  obtain ⟨hlt, hfree, hfirst⟩ := List.findIdx?_eq_some_iff_getElem.mp hi
  refine ⟨List.length_set, hlt, ?_, fun j hj => ?_, connection_set hlt _⟩
  · exact connection_of_available (List.getElem?_eq_getElem hlt) (of_decide_eq_true hfree)
  · have hused : client[j].fd ≠ none := by simpa using hfirst j hj
    obtain ⟨fd', hfd'⟩ := Option.ne_none_iff_exists'.mp hused
    rw [connection_of_getElem (List.getElem?_eq_getElem (hj.trans hlt)) hfd']
    exact Option.some_ne_none _

/-- A search fails only if no entry is available, and not after client_alloc. -/
theorem clientSearch_clientAlloc (client : List Client) (fd uid : ℕ) :
    ∃ r, clientSearch (clientAlloc client) fd uid = some r := by
  have hsome : ((clientAlloc client).findIdx? fun c => decide (c.fd = none)).isSome = true := by
    rw [List.findIdx?_isSome, List.any_eq_true]
    refine ⟨⟨none, none⟩, ?_, rfl⟩
    exact List.mem_append_right _ (List.mem_replicate.mpr ⟨by decide, rfl⟩)
  obtain ⟨i, hi⟩ := Option.isSome_iff_exists.mp hsome
  exact ⟨_, by rw [clientSearch, hi]; rfl⟩

/-- client_add always finds an entry, and it is the first that is available. -/
theorem clientAdd_spec (client : List Client) (fd uid : ℕ) :
    ∃ i client', clientAdd client fd uid = some (i, client') ∧ client.length ≤ client'.length ∧
      i < client'.length ∧ connection client i = none ∧ (∀ j < i, connection client j ≠ none) ∧
      connection client' = Function.update (connection client) i (some (fd, some uid)) := by
  have hsearch : ∃ client₁ r, client.length ≤ client₁.length ∧
      connection client₁ = connection client ∧ clientSearch client₁ fd uid = some r ∧
      clientAdd client fd uid = some r := by
    have hgrown : ∀ l : List Client, l.length ≤ (clientAlloc l).length := fun l => by
      rw [clientAlloc, List.length_append]
      exact Nat.le_add_right _ _
    obtain ⟨client₀, hclient₀, hlen, hconn⟩ : ∃ client₀,
        (if client = [] then clientAlloc client else client) = client₀ ∧
          client.length ≤ client₀.length ∧ connection client₀ = connection client := by
      split
      · exact ⟨_, rfl, hgrown client, connection_clientAlloc client⟩
      · exact ⟨client, rfl, le_refl _, rfl⟩
    obtain ⟨r', hr'⟩ := clientSearch_clientAlloc client₀ fd uid
    cases hs : clientSearch client₀ fd uid with
    | some r => exact ⟨client₀, r, hlen, hconn, hs, by simp [clientAdd, hclient₀, hs]⟩
    | none =>
      refine ⟨clientAlloc client₀, r', hlen.trans (hgrown client₀), ?_, hr', ?_⟩
      · rw [connection_clientAlloc, hconn]
      · simp [clientAdd, hclient₀, hs, hr']
  obtain ⟨client₁, ⟨i, client'⟩, hlen, hconn, hs, hadd⟩ := hsearch
  obtain ⟨hlen', hlt, hfree, hfirst, hnew⟩ := clientSearch_spec hs
  rw [hconn] at hfree hfirst hnew
  exact ⟨i, client', hadd, hlen' ▸ hlen, hlen' ▸ hlt, hfree, hfirst, hnew⟩

/-- client_del finds the descriptor if it is in the array. -/
theorem clientDel_spec {v : Option ℕ} (h : connection client i = some (fd, v))
    (hinj : ∀ j w, connection client j = some (fd, w) → j = i) :
    ∃ client', clientDel client fd = some client' ∧ client'.length = client.length ∧
      connection client' = Function.update (connection client) i none ∧
      ∀ j : ℕ, (client'[j]?).map Client.uid = (client[j]?).map Client.uid := by
  have hi := connection_eq_some.mp h
  have hfind : client.findIdx? (fun c => decide (c.fd = some fd)) = some i := by
    obtain ⟨hlt, hget⟩ := List.getElem?_eq_some_iff.mp hi
    refine List.findIdx?_eq_some_iff_getElem.mpr ⟨hlt, ?_, fun j hj => ?_⟩
    · rw [hget]
      exact decide_eq_true rfl
    · rw [decide_eq_true_eq]
      intro hfd
      have hj' := hinj j _ (connection_of_getElem (List.getElem?_eq_getElem (hj.trans hlt)) hfd)
      exact hj.ne hj'
  refine ⟨client.modify i fun c => { c with fd := none }, ?_, List.length_modify .., ?_, fun j => ?_⟩
  · rw [clientDel, hfind]
    rfl
  · exact connection_release client i
  · rw [List.getElem?_modify]
    cases client[j]? with
    | none => rfl
    | some c => by_cases hij : i = j <;> simp [hij]

end Apue.Open
