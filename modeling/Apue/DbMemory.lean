import Apue.DbReopen
import Apue.DbSettled

/-!
The two buffers of a handle. db_fetch returns its data buffer, and db_store
overwrites that buffer with blanks when it deletes a record to replace it, before it
has written the data. The index buffer is filled by sprintf before the length of
the text is looked at.
-/
namespace Apue.Db

open Programs Decimal ByteFiles Pointers Threads

variable {fuel : ℕ} {st : Store} {key data : List Byte} {chain : ℕ → List ℕ} {free : List ℕ}
variable {flag : ℤ}

section Stored

variable {data' : List Byte} {flag : ℤ} {log : List Store} {fin : Store}

/-- An append that succeeds leaves a record of the key with the data. -/
theorem Resting.bound_appended (h : Resting st.files st chain free) (hkey : KeyOk key)
    (hdata : ∀ c ∈ data, c ≠ 0) (hdlen : data.length + 1 ≤ DATLEN_MAX)
    (hmiss : ∀ a ∈ chain (hashOf key), (st.body a).key ≠ key)
    (happ : Appends st (cell (hashOf key)) (st.ptr (cell (hashOf key))) key data log fin true) :
    ∃ chain' free', Resting fin.files fin chain' free' ∧
      ∃ a ∈ chain' (hashOf key), (fin.body a).key = key ∧ fin.dat (fin.body a).datoff = data := by
  cases happ with
  | linked hlen hnear =>
    have hself : Function.update st.body st.idxFile.length (st.newBody key data) st.idxFile.length =
      st.newBody key data := Function.update_self ..
    have hchain : st.idxFile.length ∈ Function.update chain (hashOf key)
        (st.idxFile.length :: chain (hashOf key)) (hashOf key) := by
      rw [Function.update_self]
      exact List.mem_cons_self
    refine ⟨_, _, h.appended hkey hdata hmiss hdlen hlen hnear, st.idxFile.length, hchain,
      congrArg Body.key hself, ?_⟩
    refine (congrArg (fun b : Body => Function.update st.dat st.datFile.length data b.datoff)
      hself).trans ?_
    exact Function.update_self ..

/-- A call of db_store that succeeds leaves a record of the key, with `data'` if the
old one was deleted on the way. -/
theorem Resting.bound_stored (h : Resting st.files st chain free) (hkey : KeyOk key)
    (hdata : ∀ c ∈ data, c ≠ 0) (hdata' : ∀ c ∈ data', c ≠ 0)
    (hdlen' : Replaces st chain key data flag → data'.length + 1 ≤ DATLEN_MAX)
    (hs : StoresWith st chain free key data data' flag log fin true) :
    ∃ chain' free', Resting fin.files fin chain' free' ∧
      ∃ a ∈ chain' (hashOf key), (fin.body a).key = key ∧
        fin.dat (fin.body a).datoff = if Replaces st chain key data flag then data' else data := by
  cases hs with
  | kept hkept hs =>
    rw [if_neg hkept]
    cases hs with
    | @reused pre a rest hacc hmiss hflag hfree hfit =>
      have hself : Function.update st.body a ((st.body a).rekey key) a = (st.body a).rekey key :=
        Function.update_self ..
      have hchain : a ∈ Function.update chain (hashOf key) (a :: chain (hashOf key))
          (hashOf key) := by
        rw [Function.update_self]
        exact List.mem_cons_self
      refine ⟨_, _, h.reused hkey hdata hmiss hfree hfit, a, hchain, congrArg Body.key hself, ?_⟩
      refine (congrArg (fun b : Body => Function.update st.dat (st.body a).datoff data b.datoff)
        hself).trans ?_
      exact Function.update_self ..
    | appended hacc hmiss hflag hfit happ => exact h.bound_appended hkey hdata hacc.le_max hmiss happ
    | @replaced pre o rest _ _ _ hacc hchain hk hflag hlen happ =>
      have ho : o ∈ chain (hashOf key) := hchain ▸ List.mem_append_right _ List.mem_cons_self
      exact absurd ⟨hacc, o, ho, hk, hflag, hlen⟩ hkept
    | @overwritten o hacc ho hk hflag hlen =>
      exact ⟨_, _, h.overwritten hdata (h.mem_chain_hash.mp ho).1 hlen, o, ho, hk,
        Function.update_self ..⟩
  | @replaced pre o rest _ _ _ hacc hchain hk hflag hlen happ =>
    have ho : o ∈ chain (hashOf key) := hchain ▸ List.mem_append_right _ List.mem_cons_self
    have hreplaces : Replaces st chain key data flag := ⟨hacc, o, ho, hk, hflag, hlen⟩
    rw [if_pos hreplaces]
    refine (h.unlinked hchain).bound_appended hkey hdata' (hdlen' hreplaces) (fun a ha => ?_) happ
    rw [Function.update_self] at ha
    have hne : a ≠ o := h.ne_of_chain hchain ha
    have hbody : (st.unlinked o (lastCell (cell (hashOf key)) pre)).body a = st.body a :=
      Function.update_of_ne hne ..
    have hmem : a ∈ chain (hashOf key) :=
      hchain ▸ (List.mem_append.mp ha).elim (List.mem_append_left _) fun hr =>
        List.mem_append_right _ (List.mem_cons_of_mem _ hr)
    rw [hbody]
    exact fun hka => hne ((h.searched key).uniq a hmem o ho hka hk)

end Stored

/-- A replacement succeeds when the new record fits. -/
theorem Resting.replaced_iff {data' : List Byte} {log : List Store} {fin : Store} {done : Bool}
    (h : Resting st.files st chain free) (hkey : key ≠ [])
    (hr : Replaces st chain key data flag)
    (hs : StoresWith st chain free key data data' flag log fin done) :
    done = true ↔
      (st.newBody key data').text.length ≤ IDXLEN_MAX ∧ st.idxFile.length ≤ PTR_MAX := by
  cases hs with
  | kept hkept _ => exact absurd hr hkept
  | @replaced pre o rest log fin done hacc hchain hk hflag hlen happ =>
    obtain ⟨hidx, hdat⟩ := h.length_unlinked hchain (lastCell (cell (hashOf key)) pre)
    have hbody : (st.unlinked o (lastCell (cell (hashOf key)) pre)).newBody key data' =
        st.newBody key data' := by rw [Store.newBody, hdat, Store.newBody]
    rw [← hbody, ← hidx]
    cases happ with
    | short hshort => exact absurd hshort (not_lt.mpr (Store.newBody_min_le hkey))
    | long hlong => exact iff_of_false (by rintro ⟨⟩) fun hfit => absurd hfit.1 (not_le.mpr hlong)
    | far _ hfar => exact iff_of_false (by rintro ⟨⟩) fun hfit => absurd hfit.2 (not_le.mpr hfar)
    | linked hfit hnear => exact iff_of_true rfl ⟨hfit, hnear⟩

/-- db_store of a value in the buffer in which db_fetch has returned it: if the call
succeeds, db_fetch returns that value for the new key. -/
def StoresFetched (fuel : ℕ) (db : DB) (s : Files × Pos) (key₁ key₂ : List Byte) : Prop :=
  ∀ value db₁ s₁ db₂ s₂, (dbFetch fuel db key₁).run fileCall s = (.ok (db₁, some value), s₁) →
    (dbStoreWith unchecked fuel db₁ key₂ .datbuf DB_STORE).run fileCall s₁ = (.ok (db₂, 0), s₂) →
    ∃ db₃ s₃, (dbFetch fuel db₂ key₂).run fileCall s₂ = (.ok (db₃, some value), s₃)

/-- The second key has a value of another length, and its record can be replaced. -/
def Clobbers (fuel : ℕ) (files : Files) (key₁ key₂ : List Byte) : Prop :=
  ∃ value old, Binding fuel files key₁ value ∧ Binding fuel files key₂ old ∧
    value.length ≠ old.length ∧ DATLEN_MIN ≤ value.length + 1 ∧
    (idxText key₂ files.dat.length (old.length + 1)).length ≤ IDXLEN_MAX ∧
    files.idx.length ≤ PTR_MAX

section Fetched

variable (h : Resting st.files st chain free) (hfuel : PTR_MAX < fuel) {db : DB} (hdb : db.Opened)
include h hfuel hdb

/-- db_fetch of a present key. -/
theorem Resting.runs_fetch {value : List Byte} (hbound : Binding fuel st.files key value)
    (pos : Pos) : ∃ db' pos', db'.Opened ∧ db'.datbuf = value ∧
      (dbFetch fuel db key).run fileCall (st.files, pos) =
        (.ok (db', some value), (st.files, pos')) := by
  have hlookup := h.lookup_eq_some.mpr ((h.binding_iff hfuel).mp hbound)
  obtain ⟨db', hdb', hbuf, pos', hruns⟩ := goes_fetch hfuel h.ok hdb (h.searched key) pos
  rw [hlookup] at hbuf hruns
  exact ⟨db', pos', hdb', hbuf value rfl, hruns.run⟩

theorem Resting.binding_of_fetch {value : List Byte} {pos : Pos} {db' : DB} {t : Files × Pos}
    (hrun : (dbFetch fuel db key).run fileCall (st.files, pos) = (.ok (db', some value), t)) :
    Binding fuel st.files key value := by
  obtain ⟨db₁, -, -, pos', hruns⟩ := goes_fetch hfuel h.ok hdb (h.searched key) pos
  obtain ⟨he, -⟩ := Prod.mk.inj (hruns.run.symm.trans hrun)
  have hlookup := (Prod.mk.inj (Outcome.ok.inj he)).2
  exact (h.binding_iff hfuel).mpr (h.lookup_eq_some.mp hlookup)

/-- The data that the data buffer gives: the value that is in it, or the blanks of the
record that is deleted. -/
theorem Resting.goes_storeFetched {value old : List Byte} (hbuf : db.datbuf = value)
    (hvalue : ∀ c ∈ value, c ≠ 0)
    (hold : ∀ o ∈ chain (hashOf key), (st.body o).key = key → (st.body o).datlen = old.length + 1)
    (pos : Pos) : ∃ log fin done out,
      StoresWith st chain free key value (List.replicate old.length SPACE) DB_STORE log fin done ∧
      Goes (dbStoreWith unchecked fuel db key .datbuf DB_STORE) (st.files, pos)
        (log.map Store.files) out fin.files ∧
      (Succeeds out ↔ done = true) ∧ Usable fin key out := by
  obtain ⟨log, fin, done, out, hstores, hgoes, hsucc, husable, -⟩ :=
    @goes_storeWith fuel st key value unchecked st.files chain free h hfuel db hdb .datbuf
      formatOk_unchecked hvalue (fun db' he => he.trans hbuf) (List.replicate old.length SPACE)
      (fun c hc => by
        rw [List.eq_of_mem_replicate hc]
        decide)
      (fun o ho hk db' he => by
        rw [hold o ho hk, Nat.add_sub_cancel] at he
        exact he) DB_STORE pos
  exact ⟨log, fin, done, out, hstores, hgoes, hsucc, husable⟩

variable {value old : List Byte}

omit hdb in
theorem Resting.datlen_of_binding (hold : Binding fuel st.files key old) :
    ∀ o ∈ chain (hashOf key), (st.body o).key = key → (st.body o).datlen = old.length + 1 := by
  intro o ho hk
  have hlookup := h.lookup_eq_some.mpr ((h.binding_iff hfuel).mp hold)
  rw [(h.searched key).found ho hk] at hlookup
  rw [(h.data o (h.mem_chain_hash.mp ho).1).len, Option.some.inj hlookup]

omit hdb in
/-- What a record holds is a string of admissible length. -/
theorem Resting.value_ok (hbound : Binding fuel st.files key value) :
    (∀ c ∈ value, c ≠ 0) ∧ value.length + 1 ≤ DATLEN_MAX := by
  obtain ⟨o, ho, hpair⟩ := (h.binding_iff hfuel).mp hbound
  have hmem := (Store.mem_live.mp ho).1
  have hdat : st.dat (st.body o).datoff = value := (Prod.mk.inj hpair).2
  have hlen := (h.data o hmem).len
  rw [hdat] at hlen
  rw [← hlen]
  exact ⟨hdat ▸ h.ok.dat_ok _ (h.data o hmem).mem, (h.ok.body_ok o hmem).datlen_le⟩

omit hdb in
/-- The value of another key replaces the old one when their lengths differ. -/
theorem Resting.replaces_iff (hmax : value.length + 1 ≤ DATLEN_MAX)
    (hold : Binding fuel st.files key old) : Replaces st chain key value DB_STORE ↔
      value.length ≠ old.length ∧ DATLEN_MIN ≤ value.length + 1 := by
  have hdatlen := h.datlen_of_binding hfuel hold
  constructor
  · rintro ⟨hacc, o, ho, hk, -, hne⟩
    rw [hdatlen o ho hk] at hne
    exact ⟨fun he => hne (congrArg (· + 1) he), hacc.min_le⟩
  · rintro ⟨hne, hmin⟩
    obtain ⟨o, ho, hpair⟩ := (h.binding_iff hfuel).mp hold
    obtain ⟨ho, hb⟩ := Store.mem_live.mp ho
    have hk : (st.body o).key = key := (Prod.mk.inj hpair).1
    have hmem := h.mem_chain_hash.mpr ⟨ho, hb, congrArg hashOf hk⟩
    refine ⟨⟨Or.inr (Or.inr rfl), hmin, hmax⟩, o, hmem, hk, by decide, ?_⟩
    rw [hdatlen o hmem hk]
    exact fun he => hne (Nat.succ.inj he)

variable {key₁ key₂ : List Byte} (hkey₂ : KeyOk key₂)
include hkey₂

theorem Resting.stores_of_not_clobbers (hnot : ¬ Clobbers fuel st.files key₁ key₂) (pos : Pos) :
    StoresFetched fuel db (st.files, pos) key₁ key₂ := by
  intro value db₁ s₁ db₂ s₂ hfetch hstore
  have hbound := h.binding_of_fetch hfuel hdb hfetch
  obtain ⟨hvalue, hmax⟩ := h.value_ok hfuel hbound
  obtain ⟨db', pos₁, hdb₁, hbuf, hrun⟩ := h.runs_fetch hfuel hdb hbound pos
  obtain ⟨he, rfl⟩ := Prod.mk.inj (hrun.symm.trans hfetch)
  obtain ⟨rfl, -⟩ := Prod.mk.inj (Outcome.ok.inj he)
  -- the value that the second key had, if it had one
  obtain ⟨old, hold, hdatlen⟩ : ∃ old, (Replaces st chain key₂ value DB_STORE →
      Binding fuel st.files key₂ old) ∧ ∀ o ∈ chain (hashOf key₂), (st.body o).key = key₂ →
        (st.body o).datlen = old.length + 1 := by
    by_cases hex : ∃ old, Binding fuel st.files key₂ old
    · obtain ⟨old, hold⟩ := hex
      exact ⟨old, fun _ => hold, h.datlen_of_binding hfuel hold⟩
    · have hnone : ∀ o ∈ chain (hashOf key₂), (st.body o).key ≠ key₂ := fun o ho hk =>
        hex ⟨_, (h.binding_iff hfuel).mpr ⟨o, Store.mem_live.mpr
          ⟨(h.mem_chain_hash.mp ho).1, (h.mem_chain_hash.mp ho).2.1⟩, Prod.ext hk rfl⟩⟩
      exact ⟨[], fun ⟨_, o, ho, hk, _⟩ => absurd hk (hnone o ho),
        fun o ho hk => absurd hk (hnone o ho)⟩
  obtain ⟨log, fin, done, out, hstores, ⟨pos₂, hruns⟩, hsucc, husable⟩ :=
    h.goes_storeFetched hfuel hdb₁ hbuf hvalue hdatlen pos₁
  obtain ⟨rfl, rfl⟩ := Prod.mk.inj (hruns.run.symm.trans hstore)
  obtain rfl := hsucc.mp ⟨db₂, rfl⟩
  have hkept : ¬ Replaces st chain key₂ value DB_STORE := fun hr => by
    obtain ⟨hlen, hnear⟩ := (h.replaced_iff hkey₂.nonempty hr hstores).mp rfl
    obtain ⟨hne, hmin⟩ := (h.replaces_iff hfuel hmax (hold hr)).mp hr
    refine hnot ⟨value, old, hbound, hold hr, hne, hmin, ?_, hnear⟩
    rw [Body.text, Store.newBody, List.length_replicate] at hlen
    exact hlen
  obtain ⟨chain', free', h', a, ha, hka, hda⟩ := h.bound_stored hkey₂ hvalue
    (fun c hc => by
      rw [List.eq_of_mem_replicate hc]
      decide) (fun hr => absurd hr hkept) hstores
  rw [if_neg hkept] at hda
  have hmem := h'.mem_chain_hash.mp ha
  have hnew : Binding fuel fin.files key₂ value := (h'.binding_iff hfuel).mpr
    ⟨a, Store.mem_live.mpr ⟨hmem.1, hmem.2.1⟩, Prod.ext hka hda⟩
  obtain ⟨db₃, pos₃, -, -, hlast⟩ := h'.runs_fetch hfuel (husable _ rfl).1 hnew pos₂
  exact ⟨db₃, _, hlast⟩

/-- The blanks of the old record are stored in the place of the value. -/
theorem Resting.not_stores_of_clobbers (hclobbers : Clobbers fuel st.files key₁ key₂) (pos : Pos) :
    ¬ StoresFetched fuel db (st.files, pos) key₁ key₂ := by
  obtain ⟨value, old, hbound, hold, hne, hmin, hlen, hnear⟩ := hclobbers
  obtain ⟨hvalue, hmax⟩ := h.value_ok hfuel hbound
  obtain ⟨-, hmaxold⟩ := h.value_ok hfuel hold
  obtain ⟨db₁, pos₁, hdb₁, hbuf, hfetch⟩ := h.runs_fetch hfuel hdb hbound pos
  obtain ⟨log, fin, done, out, hstores, ⟨pos₂, hruns⟩, hsucc, husable⟩ :=
    h.goes_storeFetched hfuel hdb₁ hbuf hvalue (h.datlen_of_binding hfuel hold) pos₁
  have hr := (h.replaces_iff hfuel hmax hold).mpr ⟨hne, hmin⟩
  have hdone : done = true := by
    refine (h.replaced_iff hkey₂.nonempty hr hstores).mpr ⟨?_, hnear⟩
    rw [Body.text, Store.newBody, List.length_replicate]
    exact hlen
  obtain rfl := hdone
  obtain ⟨db₂, rfl⟩ := hsucc.mpr rfl
  obtain ⟨chain', free', h', a, ha, hka, hda⟩ := h.bound_stored hkey₂ hvalue
    (fun c hc => by
      rw [List.eq_of_mem_replicate hc]
      decide) (fun _ => by
      rw [List.length_replicate]
      exact hmaxold) hstores
  rw [if_pos hr] at hda
  have hmem := h'.mem_chain_hash.mp ha
  have hnew : Binding fuel fin.files key₂ (List.replicate old.length SPACE) :=
    (h'.binding_iff hfuel).mpr ⟨a, Store.mem_live.mpr ⟨hmem.1, hmem.2.1⟩, Prod.ext hka hda⟩
  obtain ⟨db₃, pos₃, -, -, hlast⟩ := h'.runs_fetch hfuel (husable _ rfl).1 hnew pos₂
  intro hall
  obtain ⟨db₄, s₄, hlast'⟩ := hall value db₁ _ db₂ _ hfetch hruns.run
  obtain ⟨he, -⟩ := Prod.mk.inj (hlast.symm.trans hlast')
  obtain ⟨-, he⟩ := Prod.mk.inj (Outcome.ok.inj he)
  refine hne ?_
  rw [← Option.some.inj he, List.length_replicate]

end Fetched

section Overrun

variable (h : Resting st.files st chain free) (hfuel : PTR_MAX < fuel) {db : DB} (hdb : db.Opened)
include h hfuel hdb

end Overrun

section Reached

variable {P : Type} [DecidableEq P] {allowed : P → Op → Prop}

/-- Whenever all processes are between operations: a fetched value is stored as it is
unless its length differs from that of the value which it replaces. -/
theorem fetched_stored (hfuel : PTR_MAX < fuel) (hallowed : ∀ p o, allowed p (.keyed o) → o.Ok)
    {c : DbConfig P} (hreach : Reach (machine fuel allowed) (opened createdFiles) c)
    (hidle : ∀ p, ∃ db, c.thread p = .idle db) {p : P} {db : DB} (hp : c.thread p = .idle db)
    {key₁ key₂ : List Byte} (hkey₂ : KeyOk key₂) :
    StoresFetched fuel db (c.shared.files, c.priv p) key₁ key₂ ↔
      ¬ Clobbers fuel c.shared.files key₁ key₂ := by
  obtain ⟨⟨st, chain, free, h⟩, hopened⟩ := resting_of_reach hfuel hallowed hreach hidle
  have htext := h.text
  rw [htext] at h ⊢
  constructor
  · intro hstores hclobbers
    exact h.not_stores_of_clobbers hfuel (hopened p db hp) hkey₂ hclobbers _ hstores
  · exact fun hnot => h.stores_of_not_clobbers hfuel (hopened p db hp) hkey₂ hnot _

/-- A fetch, a store of what it returned and a fetch of that: the two values. -/
def copied (fuel : ℕ) (key₁ key₂ : List Byte) (db : DB) (s : Files × Pos) :
    Option (List Byte × Option (List Byte)) :=
  match (dbFetch fuel db key₁).run fileCall s with
  | (.ok (db₁, some value), s₁) =>
    match (dbStoreWith unchecked fuel db₁ key₂ .datbuf DB_STORE).run fileCall s₁ with
    | (.ok (db₂, 0), s₂) =>
      match (dbFetch fuel db₂ key₂).run fileCall s₂ with
      | (.ok (_, v), _) => some (value, v)
      | _ => none
    | _ => none
  | _ => none

theorem StoresFetched.copied {key₁ key₂ value : List Byte} {db : DB} {s : Files × Pos}
    {v : Option (List Byte)} (h : StoresFetched fuel db s key₁ key₂)
    (hcopied : Db.copied fuel key₁ key₂ db s = some (value, v)) : v = some value := by
  unfold Db.copied at hcopied
  split at hcopied
  · rename_i db₁ value₁ s₁ hfetch
    split at hcopied
    · rename_i db₂ s₂ hstore
      obtain ⟨db₃, s₃, hlast⟩ := h value₁ db₁ s₁ db₂ s₂ hfetch hstore
      rw [hlast] at hcopied
      obtain ⟨rfl, rfl⟩ := Prod.mk.inj (Option.some.inj hcopied)
      rfl
    · cases hcopied
  · cases hcopied

/-- The value of the first of two records is stored under the key of the second, which
has a value of the same length. -/
def sameLengths : Outcome (List Res × DB) × (Files × Pos) → Bool
  | (.ok (_, db), s) =>
    decide (copied 10000000 [97, 98] [99, 97] db s = some ([120], some [120])) &&
      match (dbFetch 10000000 openedHandle [97, 98]).run fileCall (s.1, ⟨967, 0⟩),
        (dbFetch 10000000 openedHandle [99, 97]).run fileCall (s.1, ⟨967, 0⟩) with
      | (.ok (_, some v₁), _), (.ok (_, some v₂), _) => decide (v₁.length = v₂.length)
      | _, _ => false
  | _ => false

theorem fetched_stored_two : ∃ (c : DbConfig Unit) (db : DB),
    Reach (machine 10000000 fun _ o => o.Ok) (opened createdFiles) c ∧ c.thread () = .idle db ∧
    StoresFetched 10000000 db (c.shared.files, c.priv ()) [97, 98] [99, 97] ∧
    copied 10000000 [97, 98] [99, 97] db (c.shared.files, c.priv ()) = some ([120], some [120]) := by
  have hrun : sameLengths (session 10000000 twoStored) = true := by decide +kernel
  unfold sameLengths at hrun
  split at hrun
  · rename_i rs db s hsess
    obtain ⟨hcopied, hlengths⟩ := Bool.and_eq_true_iff.mp hrun
    split at hlengths
    · rename_i db₁ v₁ s₁ db₂ v₂ s₂ hfetch₁ hfetch₂
      obtain ⟨c, hreach, hp, rfl⟩ := reach_session twoStored_ok hsess
      refine ⟨c, db, hreach, hp, ?_, of_decide_eq_true hcopied⟩
      refine (fetched_stored (by decide) (fun _ _ h => h) hreach (fun _ => ⟨db, hp⟩) hp
        (by decide)).mpr ?_
      rintro ⟨value, old, ⟨_, _, hvalue⟩, ⟨_, _, hold⟩, hne, -⟩
      obtain ⟨he₁, -⟩ := Prod.mk.inj (hvalue.symm.trans hfetch₁)
      obtain ⟨he₂, -⟩ := Prod.mk.inj (hold.symm.trans hfetch₂)
      refine hne ?_
      rw [Option.some.inj (Prod.mk.inj (Outcome.ok.inj he₁)).2,
        Option.some.inj (Prod.mk.inj (Outcome.ok.inj he₂)).2]
      exact of_decide_eq_true hlengths
    · cases hlengths
  · cases hrun

/-- Two keys whose values have different lengths. -/
def unevenStored : List Op :=
  [.keyed (.store [97, 98] [120, 121] DB_INSERT), .keyed (.store [99, 97] [122] DB_INSERT)]

theorem unevenStored_ok : ∀ o ∈ unevenStored, o.Ok := by
  have h₁ : KeyOk [97, 98] := by decide
  have h₂ : KeyOk [99, 97] := by decide
  simp [unevenStored, Op.Ok, KeyOp.Ok, h₁, h₂]

def blanked : Outcome (List Res × DB) × (Files × Pos) → Bool
  | (.ok (_, db), s) =>
    decide (copied 10000000 [97, 98] [99, 97] db s = some ([120, 121], some [SPACE]))
  | _ => false

/-- The value "xy" of one key is fetched and stored under another, whose value is "z": the
call succeeds, and one blank is stored. -/
theorem fetched_blanked : ∃ (c : DbConfig Unit) (db : DB),
    Reach (machine 10000000 fun _ o => o.Ok) (opened createdFiles) c ∧ c.thread () = .idle db ∧
    KeyOk [97, 98] ∧ KeyOk [99, 97] ∧
    ¬ StoresFetched 10000000 db (c.shared.files, c.priv ()) [97, 98] [99, 97] := by
  have hrun : blanked (session 10000000 unevenStored) = true := by decide +kernel
  unfold blanked at hrun
  split at hrun
  · rename_i rs db s hsess
    obtain ⟨c, hreach, hp, rfl⟩ := reach_session unevenStored_ok hsess
    refine ⟨c, db, hreach, hp, by decide, by decide, fun hstores => ?_⟩
    have hvalue := hstores.copied (of_decide_eq_true hrun)
    revert hvalue
    decide
  · cases hrun

end Reached

end Apue.Db
