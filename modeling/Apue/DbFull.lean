import Apue.DbFailure
import Apue.DbReuse

/-!
A database that has grown too long for its pointers. A process stores one new key
after the other until the next record would begin beyond the largest pointer. The
next call of db_store writes its record, is stopped before it links it, and leaves
it behind: db_fetch does not find the key, but every scan returns it.
-/
namespace Apue.Db

open Programs Decimal ByteFiles Pointers Threads

section Keys

theorem decimal_injective {m n : ℕ} (h : decimal m = decimal n) : m = n := by
  have hval := congrArg atol h
  rw [atol_decimal, atol_decimal] at hval
  exact Int.natCast_inj.mp hval

/-- A number is a proper key. -/
theorem keyOk_decimal (n : ℕ) : KeyOk (decimal n) where
  nonempty := decimal_ne_nil n
  plain c hc := by
    constructor
    · rintro rfl
      exact not_mem_decimal (by decide) n hc
    · rintro rfl
      exact not_mem_decimal (by decide) n hc
  nonblank hb := by
    obtain ⟨c, hc⟩ := List.exists_mem_of_ne_nil _ (decimal_ne_nil n)
    exact not_mem_decimal (by decide) n (hb c hc ▸ hc)

theorem keyOk_a : KeyOk [97] := keyOk_singleton (by decide) (by decide) (by decide)

theorem decimal_ne_a (n : ℕ) : decimal n ≠ [97] := fun h =>
  not_mem_decimal (b := 97) (by decide) n (h ▸ List.mem_cons_self)

end Keys

/-- Every record has its own offset for a key, and the numbers in it are short. -/
structure Filling (st : Store) : Prop where
  key_eq : ∀ o ∈ st.offs, (st.body o).key = decimal o
  dat_le : st.datFile.length ≤ st.idxFile.length
  idx_lt : st.idxFile.length < 100000000

variable {st : Store} {chain : ℕ → List ℕ}

theorem Filling.text_le (h : Filling st) {key : List Byte} (hkey : key.length ≤ 8) :
    (st.newBody key [120]).text.length ≤ 20 := by
  have hdat := length_decimal_le 7 st.datFile.length (h.dat_le.trans_lt h.idx_lt)
  have hone : (decimal 2).length = 1 := by decide
  rw [Body.length_text]
  change key.length + (decimal st.datFile.length).length + (decimal 2).length + 3 ≤ 20
  omega

/-- The key of the next record is not there yet. -/
theorem Filling.fresh (h : Filling st) (hrest : Resting st.files st chain []) :
    ∀ o ∈ chain (hashOf (decimal st.idxFile.length)),
      (st.body o).key ≠ decimal st.idxFile.length := by
  intro o ho hkey
  have hmem := (hrest.mem_chain_hash.mp ho).1
  rw [h.key_eq o hmem] at hkey
  exact hrest.ok.ne_new_off hmem (decimal_injective hkey)

theorem Filling.fresh_a (h : Filling st) (hrest : Resting st.files st chain []) :
    ∀ o ∈ chain (hashOf [97]), (st.body o).key ≠ [97] := by
  intro o ho hkey
  rw [h.key_eq o (hrest.mem_chain_hash.mp ho).1] at hkey
  exact decimal_ne_a o hkey

/-- The store with one more record, under the number of its offset. -/
def Store.filled (st : Store) : Store :=
  ((st.addDat [120]).addRec (st.ptr (cell (hashOf (decimal st.idxFile.length))))
    (st.newBody (decimal st.idxFile.length) [120])).setPtr
      (cell (hashOf (decimal st.idxFile.length))) st.idxFile.length

theorem data_ok : ∀ c ∈ [(120 : Byte)], c ≠ 0 := by decide

theorem accepted_insert : Accepted [120] DB_INSERT := by decide

/-- A new key, when no record is deleted, is appended. -/
theorem Stores.appends {key : List Byte} {log : List Store} {fin : Store} {done : Bool}
    (h : Stores st chain [] key [120] DB_INSERT log fin done)
    (hmiss : ∀ o ∈ chain (hashOf key), (st.body o).key ≠ key) :
    Appends st (cell (hashOf key)) (st.ptr (cell (hashOf key))) key [120] log fin done := by
  cases h with
  | refused hno => exact absurd accepted_insert hno
  | missing _ hflag => exact absurd hflag (by decide)
  | present ho hkey _ => exact absurd hkey (hmiss _ ho)
  | @reused pre _ _ _ _ _ hfree _ => cases pre <;> cases hfree
  | appended _ _ _ _ happ => exact happ
  | replaced _ hchain hkey _ _ _ =>
    exact absurd hkey (hmiss _ (hchain ▸ List.mem_append_right _ List.mem_cons_self))
  | overwritten _ ho hkey _ _ => exact absurd hkey (hmiss _ ho)

/-- What an operation makes of the answer of db_store. -/
def codeOf (v : DB × ℤ) : Prog sig (DB × Res) := .ret (v.1, .code v.2)

theorem opBody_store (fuel : ℕ) (db : DB) (key data : List Byte) (flag : ℤ) :
    opBody fuel (.keyed (.store key data flag)) db = dbStore fuel db key data flag >>= codeOf := rfl

/-- Both processes are between operations, and the database holds the records that
the first of them has stored. -/
structure Filled (c : DbConfig Bool) (st : Store) (chain : ℕ → List ℕ) : Prop where
  reach : Reach (machine 10000000 keyedAndScan) (opened createdFiles) c
  idle : ∀ p, ∃ db, c.thread p = .idle db
  files : c.shared.files = st.files
  resting : Resting st.files st chain []
  filling : Filling st

theorem filled_opened : Filled (opened createdFiles) Store.empty fun _ => [] where
  reach := .refl
  idle _ := ⟨_, rfl⟩
  files := Store.empty_files.symm
  resting := by
    have hinv : Inv 10000000 keyed
        (⟨⟨createdFiles, fun _ _ _ => none⟩, [], initialGhost⟩ : DbWorld Unit) := inv_initial
    exact Resting.of_lists hinv.records lists_initial
      (fun _ _ ho => absurd ho List.not_mem_nil) fun _ _ hd => absurd hd List.not_mem_nil
  filling := by
    have hlen : Store.empty.idxFile.length = 967 := Store.empty_ok.length_idxFile
    refine ⟨fun _ ho => absurd ho List.not_mem_nil, Nat.zero_le _, ?_⟩
    rw [hlen]
    decide

/-- One more record, while a pointer can lead to it. -/
theorem Filled.next {c : DbConfig Bool} (h : Filled c st chain)
    (hnear : st.idxFile.length ≤ PTR_MAX) :
    ∃ c' chain', Filled c' st.filled chain' ∧ st.idxFile.length < st.filled.idxFile.length := by
  have hkey := keyOk_decimal st.idxFile.length
  have hmiss := h.filling.fresh h.resting
  have hshort : (decimal st.idxFile.length).length ≤ 8 :=
    length_decimal_le 7 _ h.filling.idx_lt
  have htext := h.filling.text_le hshort
  have hlen : (st.newBody (decimal st.idxFile.length) [120]).text.length ≤ IDXLEN_MAX :=
    htext.trans (by decide)
  obtain ⟨db, hp⟩ := h.idle true
  obtain ⟨log, fin, done, out, hstores, ⟨pos, hruns⟩, hsucc⟩ :=
    goes_store h.resting (by decide : PTR_MAX < 10000000) ((lockOrder_reach h.reach).opened hp)
      data_ok (decimal st.idxFile.length) DB_INSERT (c.priv true)
  have hrest := h.resting.appended hkey data_ok hmiss (by decide) hlen hnear
  obtain ⟨hidx, hdat⟩ := h.resting.length_appended hkey data_ok hmiss (by decide) hlen hnear
  cases hstores.appends hmiss with
  | short hmin => exact absurd hmin (not_lt.mpr (Store.newBody_min_le hkey.nonempty))
  | long hmax => exact absurd hmax (not_lt.mpr hlen)
  | far _ hfar => exact absurd hfar (not_lt.mpr hnear)
  | linked _ _ =>
    obtain ⟨db', rfl⟩ := hsucc.mpr rfl
    have hbody := (hruns.bind (f := codeOf) (Runs.ret (db', Res.code 0) _)).run
    rw [← opBody_store, ← h.files] at hbody
    have hallowed : keyedAndScan true
        (.keyed (.store (decimal st.idxFile.length) [120] DB_INSERT)) :=
      ⟨_, rfl, hkey, data_ok, Or.inl rfl⟩
    obtain ⟨c', ext, hreach, hthread, hfiles, -⟩ := reach_alone h.reach
      (Config.atRest_of_idle h.idle) hp hallowed hbody
    refine ⟨c', _, ⟨hreach, fun q => ?_, (Prod.mk.inj hfiles).1.symm, hrest, ?_, ?_, ?_⟩, ?_⟩
    · rw [hthread]
      cases q with
      | false => exact h.idle false
      | true => exact ⟨db', Function.update_self _ _ _⟩
    · intro o ho
      rcases List.mem_append.mp ho with ho | ho
      · refine Eq.trans ?_ (h.filling.key_eq o ho)
        exact congrArg Body.key (Function.update_of_ne (h.resting.ok.ne_new_off ho) _ _)
      · obtain rfl := List.mem_singleton.mp ho
        have hself : st.filled.body st.idxFile.length =
            st.newBody (decimal st.idxFile.length) [120] := Function.update_self _ _ _
        exact congrArg Body.key hself
    · have hle := h.filling.dat_le
      rw [Store.filled, hidx, hdat]
      simp only [PTR_SZ, IDXLEN_SZ, List.length_singleton]
      omega
    · rw [Store.filled, hidx]
      simp only [PTR_MAX, PTR_SZ, IDXLEN_SZ] at hnear ⊢
      omega
    · rw [Store.filled, hidx]
      simp only [PTR_SZ]
      omega

/-- The database grows until the next record would begin too far. -/
theorem reach_full : ∃ c st chain, Filled c st chain ∧ PTR_MAX < st.idxFile.length := by
  have hgrow : ∀ d (c : DbConfig Bool) st chain, PTR_MAX + 1 - st.idxFile.length = d →
      Filled c st chain → ∃ c st chain, Filled c st chain ∧ PTR_MAX < st.idxFile.length := by
    intro d
    induction d using Nat.strong_induction_on with
    | _ d ih =>
      intro c st chain hd h
      by_cases hnear : st.idxFile.length ≤ PTR_MAX
      · obtain ⟨c', chain', h', hlt⟩ := h.next hnear
        exact ih _ (by omega) c' _ chain' rfl h'
      · exact ⟨c, st, chain, h, not_le.mp hnear⟩
  exact hgrow _ _ _ _ rfl filled_opened

/-- A process was stopped in db_store and left its record behind. -/
structure Lost (c : DbConfig Bool) (fin : Store) (o : ℕ) : Prop where
  reach : Reach (machine 10000000 keyedAndScan) (opened createdFiles) c
  dead : c.thread true = .dead
  idle : ∃ db, c.thread false = .idle db ∧ db.Opened
  files : c.shared.files = fin.files
  orphaned : fin.Orphaned 10000000 [97] [120] o
  not_binding : ¬ Binding 10000000 fin.files [97] [120]

theorem Lost.atRest {c : DbConfig Bool} {fin : Store} {o : ℕ} (h : Lost c fin o) : c.AtRest := by
  obtain ⟨db, hp, -⟩ := h.idle
  intro q op prog hq
  cases q with
  | false => cases hp.symm.trans hq
  | true => cases h.dead.symm.trans hq

/-- The next store into a full database. -/
theorem Filled.stop {c : DbConfig Bool} (h : Filled c st chain)
    (hfar : PTR_MAX < st.idxFile.length) :
    ∃ c' fin o, Lost c' fin o := by
  have hmiss := h.filling.fresh_a h.resting
  have hlen : (st.newBody [97] [120]).text.length ≤ IDXLEN_MAX :=
    (h.filling.text_le (by decide : [(97 : Byte)].length ≤ 8)).trans (by decide)
  obtain ⟨db, hp⟩ := h.idle true
  obtain ⟨log, fin, done, out, hstores, ⟨pos, hruns⟩, -, -, hneeds, -⟩ :=
    goes_storeString h.resting (by decide : PTR_MAX < 10000000)
      ((lockOrder_reach h.reach).opened hp) formatOk_unchecked data_ok [97] DB_INSERT (c.priv true)
  have hstop : st.appendStop unchecked [97] [120] = some "_db_writeptr: invalid ptr: %d" := by
    have hmin : IDXLEN_MIN ≤ (st.newBody [97] [120]).text.length :=
      Store.newBody_min_le keyOk_a.nonempty
    rw [Store.appendStop, if_neg (by omega), if_pos hfar]
  have hout := hneeds (Or.inr ⟨accepted_insert, hmiss, by decide, fun a ha => absurd ha List.not_mem_nil⟩)
  rw [hstop] at hout
  obtain rfl : out = .aborted _ := hout
  cases hstores.stores.appends hmiss with
  | short hmin => exact absurd hmin (not_lt.mpr (Store.newBody_min_le keyOk_a.nonempty))
  | long hmax => exact absurd hmax (not_lt.mpr hlen)
  | linked _ hnear => exact absurd hfar (not_lt.mpr hnear)
  | far _ _ =>
    have hfree : ∀ q, q ≠ true → ∀ fd b, c.shared.locks q fd b = none := fun q _ =>
      (lockOrder_reach h.reach).unlocked (Config.atRest_of_idle h.idle q)
    have hallowed : keyedAndScan true (.keyed (.store [97] [120] DB_INSERT)) :=
      ⟨_, rfl, keyOk_a, data_ok, Or.inl rfl⟩
    rw [← dbStore] at hruns
    have hbody := (hruns.bind_aborted (f := codeOf)).run
    rw [← opBody_store, ← h.files] at hbody
    obtain ⟨c', s, hreach, hthread, hshared, ⟨hfiles, -⟩, -⟩ :=
      (machine 10000000 keyedAndScan).reach_stop (playedBy_fileCall keyedAndScan true) hp hallowed
        ⟨rfl, hfree⟩ hbody
    obtain ⟨db', hp'⟩ := h.idle false
    have hfalse : c'.thread false = .idle db' := by
      rw [hthread]
      exact hp'
    have hreach' := h.reach.trans hreach
    refine ⟨c', _, _, hreach', by rw [hthread, Function.update_self], ⟨db', hfalse,
      (lockOrder_reach hreach').opened hfalse⟩, ?_, h.resting.orphaned (by decide) keyOk_a data_ok
      (by decide) (h.resting.ok.ptr_le (cell (hashOf [97]))) hlen, ?_⟩
    · rw [hshared]
      exact (Prod.mk.inj hfiles).1.symm
    · have hfinds := ((h.resting.finds [97]).addDat data_ok).addRec
        (h.resting.ok.ptr_le (cell (hashOf [97]))) (Store.newBody_ok keyOk_a (by decide) hlen)
      rw [Store.lookup_eq_none hmiss] at hfinds
      exact hfinds.not_binding (by decide)

theorem reach_lost : ∃ c fin o, Lost c fin o := by
  obtain ⟨c, st, chain, h, hfar⟩ := reach_full
  exact h.stop hfar

section Scan

variable {c : DbConfig Bool} {fin : Store} {o : ℕ}

theorem Store.Orphaned.data_live {fuel : ℕ} {key data : List Byte}
    (h : fin.Orphaned fuel key data o) : ∀ a ∈ fin.live fin.offs, fin.HasData a :=
  fun a ha => h.has_data a (Store.mem_live.mp ha).1

/-- The other process scans the database and finds the record. -/
theorem scan_enumerates_orphan : ¬ ∀ (c : DbConfig Bool) (db : DB),
    Reach (machine 10000000 keyedAndScan) (opened createdFiles) c → c.AtRest →
      c.thread false = .idle db → Enumerates 10000000 keyedAndScan c false db := by
  intro hall
  obtain ⟨c, fin, o, h⟩ := reach_lost
  obtain ⟨db, hp, hdb⟩ := h.idle
  obtain ⟨found, -, -, -, hbinding, hscan⟩ := hall c db h.reach h.atRest hp
  obtain ⟨i, hi⟩ := List.mem_iff_getElem?.mp (h.orphaned.mem_live keyOk_a)
  obtain ⟨db₁, pos₁, hrun, -⟩ := runAll_scan keyedAndScan h.orphaned.ok h.orphaned.data_live
    h.orphaned.length_lt (i + 1) hdb (c.priv false)
  obtain ⟨db₂, pos₂, hrun₂⟩ := hscan (i + 1)
  rw [h.files] at hrun₂
  -- both describe the answers of the same run
  have hanswers := (List.cons.inj (Prod.mk.inj (Outcome.ok.inj
    (Prod.mk.inj (hrun.symm.trans hrun₂)).1)).1).2
  have hith := List.map_inj_left.mp hanswers i (List.mem_range.mpr (Nat.lt_succ_self i))
  rw [hi, Option.map_some, h.orphaned.pair] at hith
  obtain ⟨r, hr, hpair⟩ := Option.map_eq_some_iff.mp (Res.record.inj hith).symm
  refine h.not_binding ?_
  rw [← h.files]
  exact (hbinding [97] [120]).mp ⟨r.1, hpair ▸ List.mem_of_getElem? hr⟩

theorem opBody_nextrec (fuel : ℕ) (db : DB) : opBody fuel .nextrec db =
    dbNextrec fuel db >>= fun v => .ret (v.1, .record v.2) := rfl

/-- While the scanning process was in db_nextrec, no other was in an operation and
the files were always the same: the key was not bound. -/
theorem not_boundDuring {fuel : ℕ} {hist ext : DbHist Bool} {p : Bool} {s : Shared Bool}
    {key data : List Byte} (hcur : ∀ q, q ≠ p → Hist.current hist q = none)
    (hext : ∀ e ∈ ext, (∃ cl, e.1 = .sys p .nextrec cl) ∧ e.2.files = s.files)
    (hbind : ¬ Binding fuel s.files key data) :
    ¬ BoundDuring fuel p (hist ++ (.call p .nextrec, s) :: ext) key data := by
  rintro ⟨past, e, s', later, heq, hlater, hcurrent, hnow⟩
  -- the moment does not lie before the call
  have hafter : (Event.call p .nextrec, s) ∉ later := fun hmem => hlater _ hmem rfl
  rcases List.append_eq_append_iff.mp heq with ⟨since, hmoment, hsince⟩ | ⟨since, -, hsince⟩
  · rw [hmoment] at hcurrent hnow
    have hmem : (e, s') ∈ since := by
      rcases List.eq_nil_or_concat since with rfl | ⟨since, x, rfl⟩
      · rw [List.nil_append] at hsince
        exact absurd (hsince ▸ List.mem_cons_self) hafter
      · rw [List.concat_eq_append, ← List.append_assoc] at hmoment
        obtain rfl := List.singleton_inj.mp (List.append_inj_right' hmoment rfl)
        rw [List.concat_eq_append]
        exact List.mem_append_right _ List.mem_cons_self
    have hthere : ∀ x ∈ since, x ∈ (Event.call p .nextrec, s) :: ext := fun x hx =>
      hsince.symm ▸ List.mem_append_left _ hx
    rcases hnow with hbound | ⟨q, flag, hstoring⟩
    · have hfiles : s'.files = s.files := by
        rcases List.mem_cons.mp (hthere _ hmem) with he | he
        · rw [(Prod.mk.inj he).2]
        · exact (hext _ he).2
      exact hbind (hfiles ▸ hbound)
    · by_cases hq : q = p
      · subst hq
        cases hcurrent.symm.trans hstoring
      · rw [Hist.current_append _ _ fun x hx => ?_, hcur q hq] at hstoring
        · cases hstoring
        · rcases List.mem_cons.mp (hthere x hx) with rfl | hx
          · exact fun he => hq he.symm
          · obtain ⟨⟨cl, he⟩, -⟩ := hext x hx
            rw [he]
            exact id
  · exact absurd (hsince.symm ▸ List.mem_append_right _ List.mem_cons_self) hafter

/-- The scan returns the record to a process that was alone. -/
theorem scan_returns_unbound : ¬ ∀ (c : DbConfig Bool) (past : DbHist Bool)
    (key data : List Byte) (s : Shared Bool),
    Reach (machine 10000000 keyedAndScan) (opened createdFiles) c →
      past ++ [(.ret false .nextrec (.record (some (key, data))), s)] <+: c.hist →
      Begun past key data ∧ BoundDuring 10000000 false past key data := by
  intro hall
  obtain ⟨c, fin, o, h⟩ := reach_lost
  obtain ⟨db, hp, hdb⟩ := h.idle
  obtain ⟨i, hi⟩ := List.mem_iff_getElem?.mp (h.orphaned.mem_live keyOk_a)
  -- the records before it have been returned
  obtain ⟨db₁, pos₁, hrun, rest, hahead, hrest, hle⟩ := runAll_scan keyedAndScan h.orphaned.ok
    h.orphaned.data_live h.orphaned.length_lt i hdb (c.priv false)
  have hallowed : ∀ a ∈ Op.rewind :: List.replicate i .nextrec, keyedAndScan false a := by
    intro a ha
    rcases List.mem_cons.mp ha with rfl | ha
    · exact Or.inl rfl
    · exact Or.inr (List.eq_of_mem_replicate ha)
  rw [← h.files] at hrun
  obtain ⟨c₁, hreach₁, hthread₁, ht⟩ := reach_runAll hallowed h.reach h.atRest hp hrun
  obtain ⟨hfiles₁, rfl⟩ := Prod.mk.inj ht
  have hp₁ : c₁.thread false = .idle db₁ := by rw [hthread₁, Function.update_self]
  have hrest₁ : c₁.AtRest := h.atRest.idle hthread₁
  obtain ⟨db₂, pos₂, rest₂, hnext, -⟩ := runs_nextrec h.orphaned.ok
    (lt_of_le_of_lt hle h.orphaned.length_lt) h.orphaned.data_live db₁ hahead
  have hhead : (fin.live rest).head?.map fin.pair = some ([97], [120]) := by
    rw [hrest, List.head?_drop, hi, Option.map_some, h.orphaned.pair]
  rw [hhead, ← h.files, hfiles₁] at hnext
  have hbody := hnext.bind (f := fun v => .ret (v.1, Res.record v.2)) (Runs.ret _ _)
  rw [← opBody_nextrec] at hbody
  obtain ⟨c₂, ext, hreach₂, hhist, hext⟩ := reach_readOp hreach₁ hrest₁ hp₁ (Or.inr rfl) hbody
  refine not_boundDuring (fun q hq => ?_) hext ?_
    (hall c₂ _ [97] [120] c₂.shared hreach₂ (by rw [hhist])).2
  · -- the other process is dead
    cases hcur : Hist.current c₁.hist q with
    | none => rfl
    | some o =>
      obtain ⟨prog, hbusy⟩ := Hist.busy_of_current hreach₁ rfl hcur
      exact absurd hbusy (hrest₁ q o prog)
  · rw [← hfiles₁, h.files]
    exact h.not_binding

end Scan

end Apue.Db
