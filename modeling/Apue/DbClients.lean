import Apue.DbSession

/-!
Any number of processes that use one database at the same time. Their
operations on keys give the answers of the serial run in the order of the chain
locks, and the files have their layout whenever all processes are between
operations. A process that scans the records meanwhile is given only records
that were stored and that were bound, or being bound, while it looked.
-/
namespace Apue.Db

open Programs Decimal ByteFiles Pointers Threads

variable {P : Type} [DecidableEq P] {fuel : ℕ}

/-- Processes that fetch, store and delete. -/
def keyed (_ : P) (op : Op) : Prop := ∃ o, op = .keyed o ∧ o.Ok

/-- An operation of one process, the others in none, runs to its end. -/
theorem reach_alone {allowed : P → Op → Prop} {files : Files} {c : DbConfig P}
    (hreach : Reach (machine fuel allowed) (opened files) c)
    (hrest : c.AtRest) {p : P} {o : Op} {db db' : DB} {r : Res}
    {t : Files × Pos} (hp : c.thread p = .idle db) (ho : allowed p o)
    (hrun : (opBody fuel o db).run fileCall (c.shared.files, c.priv p) = (.ok (db', r), t)) :
    ∃ c' ext, Reach (machine fuel allowed) (opened files) c' ∧
      c'.thread = Function.update c.thread p (.idle db') ∧ t = (c'.shared.files, c'.priv p) ∧
      (∀ q, q ≠ p → c'.priv q = c.priv q) ∧
      c'.hist = c.hist ++ (.call p o, c.shared) :: ext ++ [(.ret p o r, c'.shared)] ∧
      ∀ e ∈ ext, ∃ cl, e.1 = .sys p o cl := by
  have hfree : ∀ q, q ≠ p → ∀ fd b, c.shared.locks q fd b = none :=
    fun q _ => (lockOrder_reach hreach).unlocked (hrest q)
  obtain ⟨c', ext, hr, hthread, hsim, hpriv, hhist, hext⟩ :=
    (machine fuel allowed).reach_op (playedBy_fileCall allowed p) hp ho ⟨rfl, hfree⟩ hrun
  exact ⟨c', ext, hreach.trans hr, hthread, hsim.1, hpriv, hhist, hext⟩

/-- A program that writes nothing, run by one process while no other holds a lock,
leaves the files as they are at every step. -/
theorem reach_reads {allowed : P → Op → Prop} {c : DbConfig P} {p : P} {o : Op}
    {prog : Prog sig (DB × Res)} {v : DB × Res} {t : Files × Pos}
    (hp : c.thread p = .busy o prog) (hfree : ∀ q, q ≠ p → ∀ fd b, c.shared.locks q fd b = none)
    (hruns : Runs prog (c.shared.files, c.priv p) [] (.ok v) t) :
    ∃ c' ext, Reach (machine fuel allowed) c c' ∧
      c'.thread = Function.update c.thread p (.busy o (.ret v)) ∧ c'.hist = c.hist ++ ext ∧
      ∀ e ∈ ext, (∃ cl, e.1 = .sys p o cl) ∧ e.2.files = c.shared.files := by
  induction prog generalizing c with
  | ret a =>
    obtain ⟨he, -⟩ := Prod.mk.inj hruns.run
    obtain rfl := Outcome.ok.inj he
    exact ⟨c, [], .refl, (Function.update_eq_self_iff.mpr hp.symm).symm, (List.append_nil _).symm,
      fun e he => absurd he List.not_mem_nil⟩
  | abort msg => exact nomatch (Prod.mk.inj hruns.run).1
  | diverge => exact nomatch (Prod.mk.inj hruns.run).1
  | call cl k ih =>
    obtain ⟨hwrite, hlog⟩ := List.append_eq_nil_iff.mp hruns.log
    obtain ⟨s', l', hexec, hsim, hfree'⟩ :=
      @playedBy_fileCall fuel P _ allowed p cl _ c.shared (c.priv p) ⟨rfl, hfree⟩
    have hfiles : (fileCall cl (c.shared.files, c.priv p)).2.1 = c.shared.files := by
      cases cl with
      | write fd bytes => cases hwrite
      | lseek fd off whence =>
        simp only [fileCall]
        split <;> rfl
      | read fd n => rfl
      | setlkw fd type start len => rfl
      | unlck fd start len => rfl
      | fstat fd => rfl
    have hsame : s'.files = c.shared.files := by rw [← hfiles, hsim]
    obtain ⟨c', ext, hreach, hthread, hhist, hext⟩ := ih _
      (c := ⟨s', Function.update c.priv p l', Function.update c.thread p
        (.busy o (k (fileCall cl (c.shared.files, c.priv p)).1)), c.hist ++ [(.sys p o cl, s')]⟩)
      (Function.update_self _ _ _) hfree' (by
        simp only [Function.update_self]
        rw [← hsim]
        exact ⟨hruns.run, hlog⟩)
    refine ⟨c', (.sys p o cl, s') :: ext, .head (Step.sys hp hexec) hreach, ?_, ?_, fun e he => ?_⟩
    · rw [hthread, Function.update_idem]
    · rw [hhist, List.append_assoc]
      rfl
    · rcases List.mem_cons.mp he with rfl | he
      · exact ⟨⟨cl, rfl⟩, hsame⟩
      · exact ⟨(hext e he).1, (hext e he).2.trans hsame⟩

/-- An operation that writes nothing: whatever moment lies within it, the files
are as they were at its call. -/
theorem reach_readOp {allowed : P → Op → Prop} {files : Files} {c : DbConfig P} {p : P} {o : Op}
    {db db' : DB} {r : Res} {t : Files × Pos}
    (hreach : Reach (machine fuel allowed) (opened files) c) (hrest : c.AtRest)
    (hp : c.thread p = .idle db) (ho : allowed p o)
    (hruns : Runs (opBody fuel o db) (c.shared.files, c.priv p) [] (.ok (db', r)) t) :
    ∃ c' ext, Reach (machine fuel allowed) (opened files) c' ∧
      c'.hist = c.hist ++ (.call p o, c.shared) :: ext ++ [(.ret p o r, c'.shared)] ∧
      ∀ e ∈ ext, (∃ cl, e.1 = .sys p o cl) ∧ e.2.files = c.shared.files := by
  have hfree : ∀ q, q ≠ p → ∀ fd b, c.shared.locks q fd b = none :=
    fun q _ => (lockOrder_reach hreach).unlocked (hrest q)
  have hcall : Step (machine fuel allowed) c ⟨c.shared, c.priv,
      Function.update c.thread p (.busy o (opBody fuel o db)), c.hist ++ [(.call p o, c.shared)]⟩ :=
    .call hp ho
  obtain ⟨c₁, ext, hreach₁, hthread, hhist, hext⟩ := @reach_reads P _ fuel allowed
    ⟨c.shared, c.priv, Function.update c.thread p (.busy o (opBody fuel o db)),
      c.hist ++ [(.call p o, c.shared)]⟩ p o _ _ _ (Function.update_self _ _ _) hfree hruns
  have hret : c₁.thread p = .busy o (.ret (db', r)) := by
    rw [hthread, Function.update_self]
  refine ⟨_, ext, (hreach.trans (.head hcall hreach₁)).tail (.ret hret), ?_, hext⟩
  simp only [hhist, List.append_assoc, List.cons_append, List.nil_append]

/-- Operations of one process, one after the other. -/
theorem reach_runAll {allowed : P → Op → Prop} {files : Files} {os : List Op} {rs : List Res}
    {db db' : DB} {t : Files × Pos} {c : DbConfig P} {p : P} (hok : ∀ o ∈ os, allowed p o)
    (hreach : Reach (machine fuel allowed) (opened files) c)
    (hrest : c.AtRest) (hp : c.thread p = .idle db)
    (hrun : (machine fuel allowed).runAll fileCall os db (c.shared.files, c.priv p) =
      (.ok (rs, db'), t)) :
    ∃ c', Reach (machine fuel allowed) (opened files) c' ∧
      c'.thread = Function.update c.thread p (.idle db') ∧ t = (c'.shared.files, c'.priv p) := by
  induction os generalizing c db rs with
  | nil =>
    simp only [Machine.runAll, Prod.mk.injEq, Outcome.ok.injEq] at hrun
    obtain ⟨⟨-, rfl⟩, rfl⟩ := hrun
    exact ⟨c, hreach, (Function.update_eq_self_iff.mpr hp.symm).symm, rfl⟩
  | cons o os ih =>
    rw [Machine.runAll] at hrun
    split at hrun
    · rename_i db₁ r t₁ hbody
      split at hrun
      · rename_i rs₁ db₂ t₂ hrun₂
        simp only [Prod.mk.injEq, Outcome.ok.injEq] at hrun
        obtain ⟨⟨-, rfl⟩, rfl⟩ := hrun
        obtain ⟨c₁, -, hreach₁, hthread, ht₁, -⟩ :=
          reach_alone hreach hrest hp (hok o List.mem_cons_self) hbody
        subst ht₁
        obtain ⟨c₂, hreach₂, hthread₂, ht₂⟩ := ih (fun a ha => hok a (List.mem_cons_of_mem _ ha))
          hreach₁ (hrest.idle hthread) (by rw [hthread, Function.update_self]) hrun₂
        refine ⟨c₂, hreach₂, ?_, ht₂⟩
        rw [hthread₂, hthread, Function.update_idem]
      · cases hrun
      · cases hrun
    · cases hrun
    · cases hrun

/-- A session is a run of one process. -/
theorem reach_session {os : List Op} {rs : List Res} {db : DB} {t : Files × Pos}
    (hok : ∀ o ∈ os, o.Ok) (hrun : session fuel os = (.ok (rs, db), t)) :
    ∃ c : DbConfig Unit, Reach (machine fuel fun _ o => o.Ok) (opened createdFiles) c ∧
      c.thread () = .idle db ∧ t = (c.shared.files, c.priv ()) := by
  rw [session_eq] at hrun
  obtain ⟨c, hreach, hthread, ht⟩ := @reach_runAll Unit _ _ _ _ _ _ _ _ _ _ () hok .refl
    (atRest_opened _) rfl hrun
  exact ⟨c, hreach, by rw [hthread, Function.update_self], ht⟩

/-- Two keys with the same hash value are stored. -/
def twoStored : List Op :=
  [.keyed (.store [97, 98] [120] DB_INSERT), .keyed (.store [99, 97] [121] DB_INSERT)]

theorem twoStored_ok : ∀ o ∈ twoStored, o.Ok := by
  have h₁ : KeyOk [97, 98] := by decide
  have h₂ : KeyOk [99, 97] := by decide
  simp [twoStored, Op.Ok, KeyOp.Ok, h₁, h₂]

/-- The answer to an operation on a database just created, after another process
has performed `o₁` on it, and the length of the index file then. -/
def answerAfter (fuel : ℕ) (o₁ o₂ : Op) : Option (Res × ℕ) :=
  match (opBody fuel o₁ openedHandle).run fileCall (createdFiles, ⟨967, 0⟩) with
  | (.ok _, files, _) =>
    match (opBody fuel o₂ openedHandle).run fileCall (files, ⟨967, 0⟩) with
    | (.ok (_, r), files', _) => some (r, files'.idx.length)
    | _ => none
  | _ => none

/-- Two processes that take turns. -/
theorem reach_turns {allowed : Bool → Op → Prop} {o₁ o₂ : Op} {r : Res} {n : ℕ}
    (h₁ : allowed true o₁) (h₂ : allowed false o₂) (hr : answerAfter fuel o₁ o₂ = some (r, n)) :
    ∃ c past s, Reach (machine fuel allowed) (opened createdFiles) c ∧
      c.hist = past ++ [(.ret false o₂ r, s)] ∧ Hist.NoExit c.hist ∧
      (∀ p, ∃ db, c.thread p = .idle db) ∧ c.shared.files.idx.length = n := by
  unfold answerAfter at hr
  split at hr
  · rename_i v₁ files pos₁ hrun₁
    split at hr
    · rename_i db₂ r₂ files₂ pos₂ hrun₂
      obtain ⟨rfl, rfl⟩ := Prod.mk.inj (Option.some.inj hr)
      obtain ⟨c₁, ext₁, hreach₁, hthread₁, hfiles, hpriv, hhist₁, hext₁⟩ :=
        reach_alone .refl (atRest_opened _) rfl h₁ hrun₁
      have hidle₁ : ∀ p, ∃ db, c₁.thread p = .idle db := fun p => by
        rw [hthread₁]
        cases p
        · exact ⟨_, rfl⟩
        · exact ⟨_, Function.update_self ..⟩
      obtain ⟨rfl, -⟩ := Prod.mk.inj hfiles
      have hfalse : c₁.priv false = ⟨967, 0⟩ := hpriv false (by decide)
      obtain ⟨c₂, ext₂, hreach₂, hthread₂, hfiles₂, -, hhist₂, hext₂⟩ :=
        reach_alone (p := false) (o := o₂) hreach₁ (Config.atRest_of_idle hidle₁)
          (by rw [hthread₁]; rfl) h₂ (by rw [hfalse]; exact hrun₂)
      refine ⟨c₂, _, _, hreach₂, hhist₂, fun e he p o hexit => ?_, fun p => ?_,
        congrArg (·.idx.length) (Prod.mk.inj hfiles₂).1.symm⟩
      · have hsys : ∀ e ∈ ext₁ ++ ext₂, e.1 ≠ .exit p o := fun e he h => by
          rcases List.mem_append.mp he with he | he
          · obtain ⟨cl, hcl⟩ := hext₁ e he
            exact nomatch hcl.symm.trans h
          · obtain ⟨cl, hcl⟩ := hext₂ e he
            exact nomatch hcl.symm.trans h
        simp only [hhist₂, hhist₁, List.mem_append, List.mem_cons, List.not_mem_nil, or_false] at he
        rcases he with ((((he | rfl | he) | rfl) | rfl | he) | rfl)
        · cases he
        · cases hexit
        · exact hsys e (List.mem_append_left _ he) hexit
        · cases hexit
        · cases hexit
        · exact hsys e (List.mem_append_right _ he) hexit
        · cases hexit
      · rw [hthread₂]
        cases p
        · exact ⟨_, Function.update_self ..⟩
        · exact hidle₁ true
    · cases hr
  · cases hr

/-- In every interleaving in which no call is stopped, the operations of each
process give the answers of the serial run in which operations take effect in
the order of their chain locks. A serial run of the library itself gives the
same answers. No loop is cut off, and when no operation is in progress the files
have their layout. -/
theorem clients_serializable (hfuel : PTR_MAX < fuel) {c : DbConfig P}
    (hreach : Reach (machine fuel keyed) (opened createdFiles) c) (hno : Hist.NoExit c.hist) :
    (∀ p, answers c.hist p <+: serialAnswers (lockOrder c.hist) p) ∧
      (∀ rs db t, session fuel ((lockOrder c.hist).map fun a => .keyed a.2) = (.ok (rs, db), t) →
        rs = (serialRun (lockOrder c.hist)).2.map fun a => a.2.2) ∧
      (∀ p op, c.thread p ≠ .busy op .diverge) ∧
      ((∀ p, ∃ db, c.thread p = .idle db) → Layout c.shared.files) := by
  have hallowed : ∀ (p : P) o, keyed p (.keyed o) → o.Ok := by
    rintro p o ⟨o', ho, hok⟩
    cases ho
    exact hok
  obtain ⟨g, hinv, hall⟩ := holds_of_reach hfuel hallowed hreach
  have hops := (reach_allowed hreach (fun _ => ⟨_, rfl⟩) rfl)
  refine ⟨fun p => ?_, fun rs db t hrun => ?_, fun p op hp => ?_, fun hidle => ?_⟩
  · exact ⟨_, ((hinv.serial hno).2 p).symm⟩
  · have hok : ∀ o ∈ (lockOrder c.hist).map Prod.snd, o.Ok := fun o ho => by
      obtain ⟨⟨p, o'⟩, hmem, rfl⟩ := List.mem_map.mp ho
      obtain ⟨⟨e, s⟩, he, hlock⟩ := List.mem_filterMap.mp hmem
      obtain ⟨cl, rfl⟩ := lockEvent_eq_some hlock
      exact hallowed p o' (hops.2 p _ cl s he)
    have hmap : (lockOrder c.hist).map (fun a => Op.keyed a.2) =
        ((lockOrder c.hist).map Prod.snd).map Op.keyed := (List.map_map ..).symm
    rw [hmap] at hrun
    rw [session_answers hfuel hok hrun, serialRun_results]
  · have hsafe := hall p
    rw [hp] at hsafe
    obtain rfl : op = .nextrec := hsafe
    obtain ⟨o, ho, -⟩ := hops.1 p _ _ hp
    cases ho
  · have hok : ∀ p, ∃ db pos, IdleOk keyed p db pos ⟨c.shared, c.hist, g⟩ := fun p => by
      obtain ⟨db, ht⟩ := hidle p
      have := hall p
      rw [ht] at this
      exact ⟨db, _, this⟩
    refine ⟨_, _, _, hinv.layout (fun p => ?_) (fun p => ?_) fun p => ?_⟩
    · obtain ⟨db, pos, h⟩ := hok p
      exact h.held
    · obtain ⟨db, pos, h⟩ := hok p
      exact h.not_owned
    · obtain ⟨db, pos, h⟩ := hok p
      exact h.not_made

theorem clients_serializable_fetch : ∃ c : DbConfig Bool,
    Reach (machine 10000000 keyed) (opened createdFiles) c ∧ Hist.NoExit c.hist ∧
      (.fetch [97], .data (some [120])) ∈ serialAnswers (lockOrder c.hist) false ∧
      Layout c.shared.files := by
  have hkey : KeyOk [97] := keyOk_singleton (by decide) (by decide) (by decide)
  have hstore : keyed true (.keyed (.store [97] [120] DB_INSERT)) := ⟨_, rfl, by simp [KeyOp.Ok, hkey]⟩
  have hfetch : keyed false (.keyed (.fetch [97])) := ⟨_, rfl, by simp [KeyOp.Ok, hkey]⟩
  have hrun : answerAfter 10000000 (.keyed (.store [97] [120] DB_INSERT)) (.keyed (.fetch [97])) =
      some (.data (some [120]), 984) := by
    decide +kernel
  obtain ⟨c, past, s, hreach, hhist, hno, hidle, -⟩ := reach_turns hstore hfetch hrun
  obtain ⟨hanswers, -, -, hlayout⟩ := clients_serializable (by decide) hreach hno
  refine ⟨c, hreach, hno, (hanswers false).subset ?_, hlayout hidle⟩
  rw [hhist, answers_concat]
  exact List.mem_append_right _ List.mem_cons_self

/-- Every record that db_nextrec returns to a process that only scans was stored
by a call of db_store that had begun, with exactly this data. As long as no record
begins beyond the largest pointer, db_fetch would have found it at some moment of
the scan or a process was inside the db_store that binds it. -/
theorem scan_returns_bound (hfuel : PTR_MAX < fuel) {allowed : P → Op → Prop}
    (hallowed : ∀ p o, allowed p (.keyed o) → o.Ok) {c : DbConfig P}
    (hreach : Reach (machine fuel allowed) (opened createdFiles) c) {p : P}
    (hscan : Scanner allowed p) {past : DbHist P} {key data : List Byte} {s : Shared P}
    (hret : past ++ [(.ret p .nextrec (.record (some (key, data))), s)] <+: c.hist) :
    Begun past key data ∧
      ((∀ x ∈ past, x.2.files.Near) → BoundDuring fuel p past key data) := by
  obtain ⟨g, hinv, -⟩ := holds_of_reach hfuel hallowed hreach
  exact hinv.scans past p key data s hscan hret

/-- The index file grows only. -/
theorem length_idx_le {allowed : P → Op → Prop} {files : Files} {c : DbConfig P}
    (hreach : Reach (machine fuel allowed) (opened files) c) :
    ∀ x ∈ c.hist, x.2.files.idx.length ≤ c.shared.files.idx.length := by
  have hcall : ∀ (cl : Call) files pos,
      files.idx.length ≤ (fileCall cl (files, pos)).2.1.idx.length := by
    intro cl files pos
    cases cl with
    | write fd bytes =>
      cases fd with
      | idx => exact ByteFiles.le_length_writeAt _ _ _
      | dat => exact le_rfl
    | lseek fd off whence =>
      simp only [fileCall]
      split <;> exact le_rfl
    | read fd n => exact le_rfl
    | setlkw fd type start len => exact le_rfl
    | unlck fd start len => exact le_rfl
    | fstat fd => exact le_rfl
  induction hreach with
  | refl => exact fun x hx => absurd hx List.not_mem_nil
  | @tail c₁ c₂ _ hstep ih =>
    have hadd : ∀ {e : Event sig P Op Res} {s : Shared P},
        c₁.shared.files.idx.length ≤ s.files.idx.length →
        ∀ x ∈ c₁.hist ++ [(e, s)], x.2.files.idx.length ≤ s.files.idx.length := by
      intro e s hle x hx
      rcases List.mem_append.mp hx with hx | hx
      · exact (ih x hx).trans hle
      · rw [List.mem_singleton.mp hx]
    cases hstep with
    | call ht ha => exact hadd le_rfl
    | @sys p o cl k r s l ht he =>
      refine hadd ?_
      have hle := hcall cl c₁.shared.files (c₁.priv p)
      rwa [he.2.1] at hle
    | ret ht => exact hadd le_rfl
    | exit ht => exact hadd le_rfl

/-- One process that uses keys and one that scans. -/
def keyedAndScan : Bool → Op → Prop
  | true, o => keyed true o
  | false, o => o = .rewind ∨ o = .nextrec

theorem keyedAndScan_ok (p : Bool) (o : KeyOp) (ho : keyedAndScan p (.keyed o)) : o.Ok := by
  cases p with
  | false => rcases ho with ho | ho <;> cases ho
  | true =>
    obtain ⟨o', ho, hok⟩ := ho
    cases ho
    exact hok

theorem scan_returns_bound_stored : ∃ (c : DbConfig Bool) (past : DbHist Bool) (s : Shared Bool),
    Reach (machine 10000000 keyedAndScan) (opened createdFiles) c ∧
    past ++ [(.ret false .nextrec (.record (some ([97], [120]))), s)] <+: c.hist ∧
    (∀ x ∈ past, x.2.files.Near) ∧ Begun past [97] [120] ∧
    BoundDuring 10000000 false past [97] [120] := by
  have hkey : KeyOk [97] := keyOk_singleton (by decide) (by decide) (by decide)
  have hstore : keyedAndScan true (.keyed (.store [97] [120] DB_INSERT)) :=
    ⟨_, rfl, by simp [KeyOp.Ok, hkey]⟩
  have hrun : answerAfter 10000000 (.keyed (.store [97] [120] DB_INSERT)) .nextrec =
      some (.record (some ([97], [120])), 984) := by
    decide +kernel
  obtain ⟨c, past, s, hreach, hhist, -, -, hlen⟩ := reach_turns hstore (Or.inr rfl) hrun
  have hret : past ++ [(.ret false .nextrec (.record (some ([97], [120]))), s)] <+: c.hist := by
    rw [hhist]
  have hnear : ∀ x ∈ past, x.2.files.Near := fun x hx => by
    have hle := length_idx_le hreach x (hret.subset (List.mem_append_left _ hx))
    exact Files.near_of_length (hle.trans (by rw [hlen]; decide))
  obtain ⟨hbegun, hbound⟩ :=
    scan_returns_bound (p := false) (by decide) keyedAndScan_ok hreach (fun _ ho => ho) hret
  exact ⟨c, past, s, hreach, hret, hnear, hbegun, hbound hnear⟩

end Apue.Db
