import Apue.DbScan

/-!
Every operation keeps the proof outline, and a database just created satisfies
it. So it holds in every interleaving. When no operation is in progress nothing
is in the hands of a process and no lock is held, and the invariant gives the
layout of the files.
-/
namespace Apue.Db

open Programs Decimal ByteFiles Pointers Threads

variable {P : Type} [DecidableEq P] {fuel : ℕ} {allowed : P → Op → Prop}

/-- Every operation is safe from its call on. -/
theorem starts (hfuel : PTR_MAX < fuel) (hallowed : ∀ p o, allowed p (.keyed o) → o.Ok) :
    (outline fuel allowed).Starts := by
  intro p op db pos w hinv hidle hop
  refine ⟨w.ghost, moves_call hinv hidle.not_owned op, ?_⟩
  have hcur : Hist.current (w.hist ++ [(Event.call p op, w.shared)]) p = some op := by
    rw [Hist.current_concat]
    exact if_pos rfl
  have hhands : EmptyHands p (w.after (.call p op) w.shared w.ghost) :=
    ⟨hidle.not_owned, hidle.not_made⟩
  cases op with
  | keyed o =>
    have hok := hallowed p o hop
    have hns : ¬ Scanner allowed p := fun hs => by
      rcases hs _ hop with h | h <;> cases h
    have hstart : Started p o (w.after (.call p (.keyed o)) w.shared w.ghost) :=
      ⟨hidle.held, hidle.expect, hcur, hhands⟩
    cases o with
    | fetch key => exact safe_fetch hfuel hidle.opened hstart hns
    | store key data flag => exact safe_store hfuel hok hidle.opened hstart hns
    | delete key => exact safe_delete hfuel hidle.opened hstart hns
  | rewind => exact safe_rewind hidle.opened ⟨hidle.held, hidle.expect, hcur, hhands⟩
  | nextrec =>
    by_cases hs : Scanner allowed p
    · exact safe_nextrec_scanner hfuel hidle.opened ⟨hidle.held, hidle.expect, hcur, hhands⟩
        (hidle.scan hs)
    · exact safe_nextrec_other hidle.opened ⟨hidle.held, hidle.expect, hcur, hhands⟩ hs

/-- The ghost state of a database without records. -/
def initialGhost : Ghost P where
  st := Store.empty
  place c := if c ∈ heads ∧ c ≠ FREE_OFF then .chain (c / PTR_SZ - 1) else .free
  chain _ := []
  free := []
  maker _ := none
  del := .idle
  held _ := noLocks
  abs _ := none
  expect _ := none

omit [DecidableEq P] in
theorem lists_initial : Lists [] Store.empty.body (initialGhost : Ghost P).place (fun _ => []) []
    Store.empty.ptr where
  place_cell h hh := by
    have hdiv : cell h / PTR_SZ - 1 = h := by
      simp only [cell, PTR_SZ, HASH_OFF]
      omega
    simp only [initialGhost, if_pos (And.intro (cell_mem_heads hh) (cell_ne_free h)), hdiv]
  place_free := by
    simp only [initialGhost]
    exact if_neg fun hc => hc.2 rfl
  isCell c h hc := by
    by_contra hno
    simp only [initialGhost, if_neg fun hcon : c ∈ heads ∧ c ≠ FREE_OFF => hno (Or.inl hcon.1)] at hc
    cases hc
  mem_chain _ _ _ := ⟨fun ho => absurd ho List.not_mem_nil, fun ho => ho.1⟩
  mem_free _ := ⟨fun ho => absurd ho List.not_mem_nil, fun ho => ho.1⟩
  nodup_chain _ _ := List.nodup_nil
  nodup_free := List.nodup_nil
  linked_chain _ _ := rfl
  linked_free := rfl
  key_ok _ ho := absurd ho List.not_mem_nil
  key_inj _ ho := absurd ho List.not_mem_nil
  key_blank _ ho := absurd ho List.not_mem_nil

/-- A database just created. -/
theorem inv_initial :
    Inv fuel allowed (⟨⟨createdFiles, fun _ _ _ => none⟩, [], initialGhost⟩ : DbWorld P) where
  files := Store.empty_files.symm
  records := ⟨Store.empty_ok, fun _ ho => absurd ho List.not_mem_nil,
    fun _ ho => absurd ho List.not_mem_nil, fun _ ho => absurd ho List.not_mem_nil,
    fun _ hd => absurd hd List.not_mem_nil⟩
  lists := lists_initial
  locks := {
    regional := fun p => by
      funext fd b
      simp only [tableOf, initialGhost, noLocks]
      cases Region.ofByte fd b <;> rfl
    compat := fun _ _ _ _ _ _ h => nomatch h
    deleting := trivial }
  agrees _ _ _ _ _ := rfl
  serial _ := ⟨rfl, fun _ => rfl⟩
  origins := ⟨fun _ ho => absurd ho List.not_mem_nil, fun _ ho => absurd ho List.not_mem_nil⟩
  scans past p key data s _ hpre := absurd (List.prefix_nil.mp hpre) (by simp)

omit [DecidableEq P] in
theorem idle_initial (p : P) :
    IdleOk allowed p openedHandle ⟨967, 0⟩
      (⟨⟨createdFiles, fun _ _ _ => none⟩, [], initialGhost⟩ : DbWorld P) where
  opened := ⟨rfl, rfl⟩
  held := rfl
  expect := rfl
  not_owned _ ho := absurd ho List.not_mem_nil
  not_made _ hd := absurd hd List.not_mem_nil
  scan _ := ⟨[], [], rfl, rfl⟩

/-- The outline holds in every configuration that the processes reach. -/
theorem holds_of_reach (hfuel : PTR_MAX < fuel) (hallowed : ∀ p o, allowed p (.keyed o) → o.Ok)
    {c : DbConfig P} (hreach : Reach (machine fuel allowed) (opened createdFiles) c) :
    (outline fuel allowed).Holds c :=
  (outline fuel allowed).holds_reach (starts hfuel hallowed) hreach
    ⟨initialGhost, inv_initial, idle_initial⟩

section Layout

variable {w : DbWorld P} (hinv : Inv fuel allowed w)
include hinv

/-- Nobody deletes when nobody has locked the free list to write. -/
theorem Inv.idle_of_unlocked (hno : ∀ p, w.ghost.held p .free ≠ some .wrlck) :
    w.ghost.del = .idle := by
  have hlock := hinv.locks.deleting
  cases hd : w.ghost.del with
  | idle => rfl
  | blanked o =>
    rw [hd] at hlock
    obtain ⟨p, _, hfree, _⟩ := hlock
    exact absurd hfree (hno p)
  | unlinked h c v =>
    rw [hd] at hlock
    obtain ⟨_, _, p, hfree, _⟩ := hlock
    exact absurd hfree (hno p)

/-- The layout of the files when no record is in the hands of a process. -/
theorem Inv.layout (hheld : ∀ p, w.ghost.held p = noLocks)
    (hown : ∀ p, ∀ o ∈ w.ghost.st.offs, w.ghost.place o ≠ .proc p)
    (hmade : ∀ p, ∀ d ∈ w.ghost.st.doffs, w.ghost.maker d ≠ some p) :
    LayoutOf w.shared.files w.ghost.st w.ghost.chain w.ghost.free := by
  have hL := hinv.lists
  have hlinks : w.ghost.del.links w.ghost.st.ptr = w.ghost.st.ptr := by
    rw [hinv.idle_of_unlocked fun p => by rw [hheld p]; nofun]
    rfl
  rw [hlinks] at hL
  rw [hinv.files]
  exact hinv.records.layout hL hown hmade

end Layout

end Apue.Db
