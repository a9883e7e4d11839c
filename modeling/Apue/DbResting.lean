import Apue.DbAlone
import Apue.DbClients

/-!
A database at rest: no process is inside an operation. What db_fetch finds under
the keys and what a scan returns are then two readings of the same records, one
along the hash chains and one along the index file. They agree unless a process
was stopped because its record began too far for a pointer.
-/
namespace Apue.Db

open Programs Decimal ByteFiles Pointers Threads

variable {fuel : ℕ} {files : Files} {st : Store} {chain : ℕ → List ℕ} {free : List ℕ}

section Reached

variable {P : Type} [DecidableEq P] {allowed : P → Op → Prop}

/-- When all processes are between operations the database is at rest, and their
handles are as db_open made them. -/
theorem resting_of_reach (hfuel : PTR_MAX < fuel) (hallowed : ∀ p o, allowed p (.keyed o) → o.Ok)
    {c : DbConfig P} (hreach : Reach (machine fuel allowed) (opened createdFiles) c)
    (hidle : ∀ p, ∃ db, c.thread p = .idle db) :
    (∃ st chain free, Resting c.shared.files st chain free) ∧
      ∀ p db, c.thread p = .idle db → db.Opened := by
  obtain ⟨g, hinv, hall⟩ := holds_of_reach hfuel hallowed hreach
  have hok : ∀ p db, c.thread p = .idle db → IdleOk allowed p db (c.priv p) ⟨c.shared, c.hist, g⟩ :=
    fun p db hp => by
      have := hall p
      rwa [hp] at this
  have hany : ∀ p, ∃ db pos, IdleOk allowed p db pos ⟨c.shared, c.hist, g⟩ := fun p => by
    obtain ⟨db, hp⟩ := hidle p
    exact ⟨db, _, hok p db hp⟩
  refine ⟨⟨g.st, g.chain, g.free, ?_, fun o ho => ?_, hinv.records.dat_inj⟩, fun p db hp => ?_⟩
  · refine hinv.layout (fun p => ?_) (fun p => ?_) fun p => ?_
    · obtain ⟨db, pos, h⟩ := hany p
      exact h.held
    · obtain ⟨db, pos, h⟩ := hany p
      exact h.not_owned
    · obtain ⟨db, pos, h⟩ := hany p
      exact h.not_made
  · exact ⟨hinv.records.dat_mem o ho, hinv.records.dat_len o ho⟩
  · exact (hok p db hp).opened

/-- When no process is in an operation, and no record begins too far, every key is
on its chain. -/
theorem readable_of_reach (hfuel : PTR_MAX < fuel) (hallowed : ∀ p o, allowed p (.keyed o) → o.Ok)
    {c : DbConfig P} (hreach : Reach (machine fuel allowed) (opened createdFiles) c)
    (hrest : c.AtRest) (hnear : c.shared.files.Near) :
    (∃ st chain, Readable c.shared.files st chain) ∧ ∀ p db, c.thread p = .idle db → db.Opened := by
  obtain ⟨g, hinv, hall⟩ := holds_of_reach hfuel hallowed hreach
  have hL := hinv.lists
  have hok := hinv.records.ok
  have hfiles : c.shared.files = g.st.files := hinv.files
  rw [hfiles, hok.near_iff] at hnear
  have hidle : g.del = .idle := hinv.idle_of_unlocked fun p hheld => by
    have htable := tableOf_start (g.held p) .free trivial
    rw [← hinv.locks.regional p] at htable
    exact nomatch hheld.symm.trans
      (htable.symm.trans ((lockOrder_reach hreach).unlocked (hrest p) _ _))
  rw [hidle] at hL
  -- a record with a key is on its chain: nobody can be storing it
  have hplace : ∀ o ∈ g.st.offs, ¬ Blank (g.st.body o).key →
      g.place o = .chain (hashOf (g.st.body o).key) := by
    intro o ho hb
    cases hp : g.place o with
    | chain h => rw [(hL.key_ok o ho h hp).2]
    | free => exact absurd (hL.key_blank o ho hp) hb
    | proc q =>
      rcases hinv.origins.making o ho q hp hb with ⟨flag, hcur⟩ | ⟨hfar, -⟩
      · obtain ⟨prog, hbusy⟩ := Hist.busy_of_current hreach rfl hcur
        exact absurd hbusy (hrest q _ _)
      · exact absurd (hnear o ho) (not_le.mpr hfar)
  refine ⟨⟨g.st, g.chain, hfiles, hok, fun h hh o => ?_, hL.nodup_chain, hL.linked_chain,
    fun o ho a ha hb hkey => ?_, fun o ho => ⟨hinv.records.dat_mem o ho, hinv.records.dat_len o ho⟩,
    hnear⟩, fun p db hp => ?_⟩
  · rw [hL.mem_chain h hh o]
    refine and_congr_right fun ho => ⟨fun hp => ?_, fun hb => ?_⟩
    · obtain ⟨hkey, hhash⟩ := hL.key_ok o ho h hp
      exact ⟨hkey.nonblank, hhash⟩
    · rw [hplace o ho hb.1, hb.2]
  · refine hL.key_inj o ho a ha _ (hplace o ho hb) ?_ hkey
    rw [hplace a ha (hkey ▸ hb), hkey]
  · have hidle := hall p
    rw [hp] at hidle
    exact hidle.opened

end Reached

/-- db_fetch finds exactly the records that have a key. -/
theorem Readable.binding_iff (h : Readable files st chain) (hfuel : PTR_MAX < fuel)
    {key data : List Byte} :
    Binding fuel files key data ↔ ∃ o ∈ st.live st.offs, st.pair o = (key, data) := by
  obtain ⟨db, -, -, pos, hruns⟩ := goes_fetch hfuel h.ok opened_openedHandle (h.searched key) ⟨967, 0⟩
  rw [← h.lookup_eq_some, Binding, h.text, hruns.run]
  simp only [Prod.mk.injEq, Outcome.ok.injEq]
  constructor
  · rintro ⟨_, _, ⟨-, hdata⟩, -⟩
    exact hdata
  · intro hdata
    exact ⟨db, pos, ⟨rfl, hdata⟩, trivial, rfl⟩

theorem Resting.binding_iff (h : Resting files st chain free) (hfuel : PTR_MAX < fuel)
    {key data : List Byte} :
    Binding fuel files key data ↔ ∃ o ∈ st.live st.offs, st.pair o = (key, data) :=
  h.readable.binding_iff hfuel

section Scan

variable {P : Type} [DecidableEq P] (allowed : P → Op → Prop) {l : List ℕ}

/-- A scan returns the records ahead that have a key, and then nothing. -/
theorem runAll_nextrec (hok : st.Ok) (hdata : ∀ o ∈ st.live st.offs, st.HasData o)
    (hfuel : l.length < fuel) (n : ℕ) (db : DB) {pos : Pos} (hpos : st.Ahead pos.idx l) :
    ∃ db' pos', (machine fuel allowed).runAll fileCall (List.replicate n .nextrec) db
      (st.files, pos) = (.ok ((List.range n).map fun i => .record ((st.live l)[i]?.map st.pair),
        db'), st.files, pos') ∧
      ∃ rest, st.Ahead pos'.idx rest ∧ st.live rest = (st.live l).drop n ∧
        rest.length ≤ l.length := by
  induction n generalizing l db pos with
  | zero => exact ⟨db, pos, rfl, l, hpos, rfl, le_rfl⟩
  | succ n ih =>
    obtain ⟨db₁, pos₁, rest, hnext, -, hahead, hrest, hle⟩ := runs_nextrec hok hfuel hdata db hpos
    obtain ⟨db', pos', hrun, rest', hahead', hlive, hle'⟩ :=
      ih (lt_of_le_of_lt hle hfuel) db₁ hahead
    have hbody : Runs ((machine fuel allowed).body .nextrec db) (st.files, pos) []
        (.ok (db₁, .record ((st.live l).head?.map st.pair))) (st.files, pos₁) :=
      hnext.next (Runs.ret _ _)
    refine ⟨db', pos', ?_, rest', hahead', ?_, hle'.trans hle⟩
    · rw [List.replicate_succ, Machine.runAll, hbody.run]
      simp only [hrun, hrest]
      rw [List.range_succ_eq_map, List.map_cons, List.map_map, List.head?_eq_getElem?]
      simp only [List.getElem?_tail]
      rfl
    · rw [hlive, hrest, List.drop_tail]

theorem runs_rewind {db : DB} (hdb : db.Opened) (files : Files) (pos : Pos) :
    Runs (dbRewind db) (files, pos) [] (.ok { db with idxoff := (967 : ℕ) })
      (files, { pos with idx := 967 }) := by
  have hstart : (((db.nhash + 1) * PTR_SZ + 1 : ℕ) : ℤ) = (967 : ℕ) := by
    rw [hdb.1]
    rfl
  unfold dbRewind
  rw [hstart]
  exact (runs_seekSet _ _).next ((Runs.check (by decide) _).next (Runs.ret _ _))

/-- db_rewind and then a scan. -/
theorem runAll_scan (hok : st.Ok) (hdata : ∀ o ∈ st.live st.offs, st.HasData o)
    (hfuel : st.offs.length < fuel) (n : ℕ) {db : DB} (hdb : db.Opened) (pos : Pos) :
    ∃ db' pos', (machine fuel allowed).runAll fileCall (.rewind :: List.replicate n .nextrec) db
      (st.files, pos) = (.ok (.done :: (List.range n).map fun i =>
        .record ((st.live st.offs)[i]?.map st.pair), db'), st.files, pos') ∧
      ∃ rest, st.Ahead pos'.idx rest ∧ st.live rest = (st.live st.offs).drop n ∧
        rest.length ≤ st.offs.length := by
  have hbody : Runs ((machine fuel allowed).body .rewind db) (st.files, pos) []
      (.ok ({ db with idxoff := (967 : ℕ) }, .done)) (st.files, { pos with idx := 967 }) :=
    (runs_rewind hdb st.files pos).next (Runs.ret _ _)
  have hahead : st.Ahead ({ pos with idx := 967 } : Pos).idx st.offs := st.ahead_first
  obtain ⟨db', pos', hrun, hrest⟩ := runAll_nextrec allowed hok hdata hfuel n
    { db with idxoff := (967 : ℕ) } hahead
  refine ⟨db', pos', ?_, hrest⟩
  rw [Machine.runAll, hbody.run]
  simp only [hrun]

end Scan

section Enumerates

variable {P : Type} [DecidableEq P] {allowed : P → Op → Prop}

/-- db_rewind and db_nextrec on this handle enumerate the database. The records
`found` stand in the index file in this order, no key occurs twice among them,
they are what db_fetch finds under the keys, and every call of db_nextrec returns
the next of them or, after the last, nothing. -/
def Enumerates (fuel : ℕ) (allowed : P → Op → Prop) (c : DbConfig P) (p : P) (db : DB) : Prop :=
  ∃ found : List (ℕ × List Byte × List Byte),
    (found.map fun r => r.1).Pairwise (· < ·) ∧
    (∀ o key data, (o, key, data) ∈ found → ∃ ptr datoff,
      Contains c.shared.files.idx o (recText ptr ⟨key, datoff, data.length + 1⟩)) ∧
    (found.map fun r => r.2.1).Nodup ∧
    (∀ key data, (∃ o, (o, key, data) ∈ found) ↔ Binding fuel c.shared.files key data) ∧
    ∀ n, ∃ db' pos', (machine fuel allowed).runAll fileCall
      (.rewind :: List.replicate n .nextrec) db (c.shared.files, c.priv p) =
        (.ok (.done :: (List.range n).map fun i => .record (found[i]?.map fun r => r.2), db'),
          c.shared.files, pos')

/-- Whenever no process is in an operation and no record begins beyond the largest
pointer, a process that is not stopped enumerates the database. -/
theorem scan_enumerates (hfuel : PTR_MAX < fuel) (hallowed : ∀ p o, allowed p (.keyed o) → o.Ok)
    {c : DbConfig P} (hreach : Reach (machine fuel allowed) (opened createdFiles) c)
    (hrest : c.AtRest) (hnear : c.shared.files.Near) {p : P} {db : DB}
    (hp : c.thread p = .idle db) : Enumerates fuel allowed c p db := by
  obtain ⟨⟨st, chain, h⟩, hopened⟩ := readable_of_reach hfuel hallowed hreach hrest hnear
  have hmem : ∀ o key data, (o, key, data) ∈ (st.live st.offs).map (fun o => (o, st.pair o)) ↔
      o ∈ st.live st.offs ∧ st.pair o = (key, data) := by
    intro o key data
    rw [List.mem_map]
    constructor
    · rintro ⟨a, ha, he⟩
      obtain ⟨rfl, hpair⟩ := Prod.mk.inj he
      exact ⟨ha, hpair⟩
    · rintro ⟨ho, hpair⟩
      exact ⟨o, ho, by rw [hpair]⟩
  refine ⟨(st.live st.offs).map fun o => (o, st.pair o), ?_, ?_, ?_, ?_, ?_⟩
  · rw [List.map_map, List.pairwise_map]
    exact h.ok.sorted_offs.filter _
  · intro o key data hfound
    obtain ⟨hlive, hpair⟩ := (hmem o key data).mp hfound
    obtain ⟨rfl, rfl⟩ := Prod.mk.inj hpair
    have ho := (Store.mem_live.mp hlive).1
    refine ⟨st.ptr o, (st.body o).datoff, ?_⟩
    rw [← (h.data o ho).len, h.text]
    exact h.ok.contains_rec ho
  · rw [List.map_map]
    refine (h.ok.nodup_offs.filter _).map_on fun o ho a ha hkey => ?_
    obtain ⟨ho, hb⟩ := Store.mem_live.mp ho
    exact h.key_injective o ho a (Store.mem_live.mp ha).1 hb hkey
  · intro key data
    rw [h.binding_iff hfuel]
    exact exists_congr fun o => hmem o key data
  · intro n
    obtain ⟨db', pos', hrun, -⟩ := runAll_scan allowed h.ok h.data_live (h.length_offs_lt hfuel) n
      (hopened p db hp) (c.priv p)
    rw [h.text]
    refine ⟨db', pos', hrun.trans ?_⟩
    simp only [List.getElem?_map, Option.map_map]
    rfl

theorem scan_enumerates_stored : ∃ (c : DbConfig Bool) (db : DB),
    Reach (machine 10000000 fun _ o => o.Ok) (opened createdFiles) c ∧ c.AtRest ∧
      c.shared.files.Near ∧ c.thread false = .idle db ∧ c.shared.files.idx.length = 1001 ∧
      Enumerates 10000000 (fun _ o => o.Ok) c false db := by
  have ha : KeyOk [97] := keyOk_singleton (by decide) (by decide) (by decide)
  have hb : KeyOk [98] := keyOk_singleton (by decide) (by decide) (by decide)
  have hrun : answerAfter 10000000 (.keyed (.store [97] [120] DB_INSERT))
      (.keyed (.store [98] [121] DB_INSERT)) = some (.code 0, 1001) := by
    decide +kernel
  obtain ⟨c, -, -, hreach, -, -, hidle, hlen⟩ := @reach_turns _ (fun _ o => o.Ok) _ _ _ _
    (by simp [Op.Ok, KeyOp.Ok, ha]) (by simp [Op.Ok, KeyOp.Ok, hb]) hrun
  obtain ⟨db, hp⟩ := hidle false
  have hrest := Config.atRest_of_idle hidle
  have hnear : c.shared.files.Near := Files.near_of_length (by rw [hlen]; decide)
  exact ⟨c, db, hreach, hrest, hnear, hp, hlen,
    scan_enumerates (by decide) (fun _ _ h => h) hreach hrest hnear hp⟩

end Enumerates

end Apue.Db
