import Apue.DbInvariant

/-!
What one system call does to the invariant. A read or a seek changes nothing. A
write of process `p` is a `Change`: it touches only what `p` owns, so nothing
that another process sees, and it remains to check the lists and the records it
is about. Lock calls, calls and returns are treated in the module DbEvents.
-/
namespace Apue.Db

open Programs Decimal ByteFiles Pointers Threads

variable {P : Type}

theorem Store.lookup_cons (st : Store) (o : ℕ) (l : List ℕ) (key : List Byte) :
    st.lookup (o :: l) key =
      if (st.body o).key = key then some (st.dat (st.body o).datoff) else st.lookup l key := by
  simp only [Store.lookup, List.find?_cons]
  by_cases h : (st.body o).key = key
  · simp only [h, decide_true, if_true, Option.map_some]
  · simp only [h, decide_false, if_false]

/-- Two stores agree on the records `l`. -/
def Store.SameOn (st st' : Store) (l : List ℕ) : Prop :=
  ∀ o ∈ l, st'.body o = st.body o ∧ st'.dat (st.body o).datoff = st.dat (st.body o).datoff

theorem Store.SameOn.lookup {st st' : Store} {l : List ℕ} (h : st.SameOn st' l)
    (key : List Byte) : st'.lookup l key = st.lookup l key := by
  induction l with
  | nil => rfl
  | cons o l ih =>
    have ho := h o List.mem_cons_self
    rw [Store.lookup_cons, Store.lookup_cons, ho.1, ho.2,
      ih fun a ha => h a (List.mem_cons_of_mem _ ha)]

theorem LocksOk.exclusive {locks : LockTable P} {held : P → Held} {place : ℕ → Place P}
    {del : Deletion} (h : LocksOk locks held place del) {p q : P} (hq : q ≠ p) {x : Place P}
    (hp : Owns (held p) p x) : ¬ Sees (held q) q x := by
  intro hs
  have hfree : ∀ r, held p r = some .wrlck → held q r ≠ none → False := by
    intro r hw hr
    obtain ⟨t, ht⟩ := Option.ne_none_iff_exists'.mp hr
    exact LockType.noConfusion (h.compat p q hq.symm r _ t hw ht).1
  cases x with
  | chain i => exact hfree _ hp hs
  | free => exact hfree _ hp hs
  | proc i => exact hq (hs.symm.trans hp)

/-- A write of process `p` changes only what `p` owns. -/
structure Change (p : P) (g g' : Ghost P) : Prop where
  held : g'.held = g.held
  expect : g'.expect = g.expect
  abs : g'.abs = g.abs
  chain : ∀ h, g.held p (.chain h) ≠ some .wrlck → g'.chain h = g.chain h
  free : g.held p .free ≠ some .wrlck → g'.free = g.free ∧ g'.del = g.del
  cells : ∀ c, g.st.IsCell c → ¬ Owns (g.held p) p (g.place c) →
    g'.place c = g.place c ∧ g'.st.ptr c = g.st.ptr c
  recs : ∀ o ∈ g.st.offs, ¬ Owns (g.held p) p (g.place o) →
    g'.st.body o = g.st.body o ∧
      g'.st.dat (g.st.body o).datoff = g.st.dat (g.st.body o).datoff
  places : ∀ o ∈ g'.st.offs, (o ∈ g.st.offs ∧ g'.place o = g.place o) ∨
    Owns (g.held p) p (g'.place o)
  made : ∀ q, q ≠ p → ∀ d, (d ∈ g'.st.doffs ∧ g'.maker d = some q) ↔
    (d ∈ g.st.doffs ∧ g.maker d = some q)
  made_dat : ∀ q, q ≠ p → ∀ d ∈ g.st.doffs, g.maker d = some q → g'.st.dat d = g.st.dat d
  offs : g.st.offs <+: g'.st.offs
  offs_eq : g.held p .idxEnd ≠ some .wrlck → g'.st.offs = g.st.offs
  doffs : g.st.doffs <+: g'.st.doffs
  doffs_eq : g.held p .datEnd ≠ some .wrlck → g'.st.doffs = g.st.doffs
  dat_size : ∀ d ∈ g.st.doffs, (g'.st.dat d).length = (g.st.dat d).length
  fixed : ∀ o ∈ g.st.offs, (g'.st.body o).text.length = (g.st.body o).text.length ∧
    (g.held p .free ≠ some .wrlck → ¬ Blank (g.st.body o).key → g'.st.body o = g.st.body o)

section Change

variable {p q : P} {w : DbWorld P} {g' : Ghost P} {locks : LockTable P}

/-- Nothing that another process relies on is changed. -/
theorem Change.rely (hc : Change p w.ghost g')
    (hl : LocksOk locks w.ghost.held w.ghost.place w.ghost.del) (hq : q ≠ p)
    (o : Op) (c : Call) (s : Shared P) : Rely q w (w.after (.sys p o c) s g') := by
  have hnot : ∀ r, w.ghost.held q r ≠ none → w.ghost.held p r ≠ some .wrlck := by
    intro r hr hw
    obtain ⟨t, ht⟩ := Option.ne_none_iff_exists'.mp hr
    exact LockType.noConfusion (hl.compat p q hq.symm r _ t hw ht).1
  have hsee : ∀ x, Sees (w.ghost.held q) q x → ¬ Owns (w.ghost.held p) p x :=
    fun x hx hp => hl.exclusive hq hp hx
  exact {
    held := congrFun hc.held q
    expect := congrFun hc.expect q
    hist := ⟨[(.sys p o c, s)], rfl, fun e he => by
      rw [List.mem_singleton.mp he]
      exact id⟩
    chain := fun h hh => ⟨hc.chain h (hnot _ hh), fun key _ => congrFun hc.abs key⟩
    free := fun hh => hc.free (hnot _ hh)
    cells := fun x hx hs => hc.cells x hx (hsee _ hs)
    recs := fun a ha hs => hc.recs a ha (hsee _ hs)
    owned := fun a ha hp => by
      rcases hc.places a ha with ⟨ha', heq⟩ | how
      · exact ⟨ha', heq.symm.trans hp⟩
      · change g'.place a = .proc q at hp
        rw [hp] at how
        exact absurd how hq
    made := hc.made q hq
    made_dat := hc.made_dat q hq
    offs := hc.offs
    offs_eq := fun hh => hc.offs_eq (hnot _ hh)
    doffs := hc.doffs
    doffs_eq := fun hh => hc.doffs_eq (hnot _ hh)
    dat_size := hc.dat_size
    fixed := fun a ha => ⟨(hc.fixed a ha).1, fun hh hb => (hc.fixed a ha).2 (hnot _ hh) hb⟩ }

/-- The chains that nobody is changing keep their contents. -/
theorem Change.agrees {g : Ghost P} (hc : Change p g g') {links : ℕ → ℕ}
    (hlists : Lists g.st.offs g.st.body g.place g.chain g.free links)
    (h : Agrees g.held g.abs g.chain g.st) : Agrees g'.held g'.abs g'.chain g'.st := by
  intro i hi hnone key hkey
  rw [hc.held] at hnone
  rw [hc.abs, hc.chain i (hnone p), h i hi hnone key hkey]
  refine (Store.SameOn.lookup (fun o ho => ?_) key).symm
  obtain ⟨ho, hpl⟩ := (hlists.mem_chain i hi o).mp ho
  refine hc.recs o ho ?_
  rw [hpl]
  exact hnone p

/-- Records that `p` does not own keep their origin. -/
theorem Change.origins [DecidableEq P] {g : Ghost P} {hist : DbHist P} (hc : Change p g g')
    (hl : LocksOk locks g.held g.place g.del) (h : Origins hist g.st g.place g.del)
    (hbegun : ∀ o ∈ g'.st.offs, ∀ i, Owns (g.held p) p (.chain i) → g'.place o = .chain i →
      g'.del ≠ .blanked o → Begun hist (g'.st.body o).key (g'.st.dat (g'.st.body o).datoff))
    (hmaking : ∀ o ∈ g'.st.offs, g'.place o = .proc p → ¬ Blank (g'.st.body o).key →
      Making hist p o (g'.st.body o).key (g'.st.dat (g'.st.body o).datoff)) :
    Origins hist g'.st g'.place g'.del where
  begun := by
    intro o ho i hpl hdel
    by_cases how : Owns (g.held p) p (.chain i)
    · exact hbegun o ho i how hpl hdel
    · rcases hc.places o ho with ⟨ho', heq⟩ | hnew
      · have hpl' : g.place o = .chain i := heq.symm.trans hpl
        have hrec := hc.recs o ho' (by rwa [hpl'])
        rw [hrec.1, hrec.2]
        refine h.begun o ho' i hpl' fun hb => ?_
        have hlock := hl.deleting
        rw [hb] at hlock
        obtain ⟨r, j, hfree, hchain, hplace⟩ := hlock
        obtain rfl : j = i := by
          rw [hpl'] at hplace
          exact (Place.chain.inj hplace).symm
        have hrp : r ≠ p := fun he => how (he ▸ hchain)
        refine hdel (((hc.free fun hw => ?_).2).trans hb)
        exact LockType.noConfusion (hl.compat r p hrp _ _ _ hfree hw).1
      · rw [hpl] at hnew
        exact absurd hnew how
  making := by
    intro o ho r hpl hb
    by_cases hr : r = p
    · subst hr
      exact hmaking o ho hpl hb
    · rcases hc.places o ho with ⟨ho', heq⟩ | hnew
      · have hpl' : g.place o = .proc r := heq.symm.trans hpl
        have hrec := hc.recs o ho' (by rw [hpl']; exact hr)
        rw [hrec.1] at hb
        rw [hrec.1, hrec.2]
        exact h.making o ho' r hpl' hb
      · rw [hpl] at hnew
        exact absurd hnew hr

end Change

section Quiet

/-- A call that is neither a lock call nor the lock of a chain. -/
def Quiet : Call → Prop
  | .setlkw .. => False
  | .unlck .. => False
  | _ => True

theorem Begun.mono {hist hist' : DbHist P} (h : hist ⊆ hist') {key data : List Byte}
    (hb : Begun hist key data) : Begun hist' key data := by
  obtain ⟨q, flag, s, hmem⟩ := hb
  exact ⟨q, flag, s, h hmem⟩

theorem Begun.of_current [DecidableEq P] {hist : DbHist P} {p : P} {key data : List Byte} {flag : ℤ}
    (h : Hist.current hist p = some (.keyed (.store key data flag))) : Begun hist key data := by
  obtain ⟨s, hcall⟩ := Hist.mem_of_current h
  exact ⟨p, flag, s, hcall⟩

theorem Making.begun [DecidableEq P] {hist : DbHist P} {p : P} {o : ℕ} {key data : List Byte}
    (h : Making hist p o key data) : Begun hist key data := by
  rcases h with ⟨flag, hcur⟩ | ⟨-, hbegun⟩
  · exact .of_current hcur
  · exact hbegun

theorem Making.extend [DecidableEq P] {hist : DbHist P} {p : P} {o : ℕ} {key data : List Byte}
    (h : Making hist p o key data) (ext : DbHist P) (hext : ∀ e ∈ ext, ¬ e.1.Bounds p) :
    Making (hist ++ ext) p o key data := by
  rw [Making, Hist.current_append _ _ hext]
  exact h.imp_right fun hfar => ⟨hfar.1, hfar.2.mono (List.subset_append_left _ _)⟩

theorem lockEvent_quiet (p : P) (o : Op) {c : Call} (hc : Quiet c) :
    lockEvent (.sys p o c) = none := by
  cases c with
  | setlkw fd type start len => exact hc.elim
  | unlck fd start len => cases o <;> rfl
  | lseek fd off wh => cases o <;> rfl
  | read fd n => cases o <;> rfl
  | write fd bs => cases o <;> rfl
  | fstat fd => cases o <;> rfl

variable [DecidableEq P]

theorem current_sys (hist : DbHist P) (p : P) (o : Op) (c : Call) (s : Shared P) (q : P) :
    Hist.current (hist ++ [(.sys p o c, s)]) q = Hist.current hist q :=
  Hist.current_concat _ _ _

theorem Origins.sys {hist : DbHist P} {st : Store} {place : ℕ → Place P} {del : Deletion}
    (h : Origins hist st place del) (p : P) (o : Op) (c : Call) (s : Shared P) :
    Origins (hist ++ [(.sys p o c, s)]) st place del where
  begun a ha i hpl hdel := (h.begun a ha i hpl hdel).mono (List.subset_append_left _ _)
  making a ha q hpl hb := (h.making a ha q hpl hb).extend _ fun e he => by
    rw [List.mem_singleton.mp he]
    exact id

theorem ScansOk.extend {fuel : ℕ} {allowed : P → Op → Prop} {hist : DbHist P}
    (h : ScansOk fuel allowed hist) (e : Event sig P Op Res) (s : Shared P)
    (he : ∀ p key data, Scanner allowed p → e = .ret p .nextrec (.record (some (key, data))) →
      Begun hist key data ∧
        ((∀ x ∈ hist, x.2.files.Near) → BoundDuring fuel p hist key data)) :
    ScansOk fuel allowed (hist ++ [(e, s)]) := by
  intro past p key data s' hscan hpre
  rcases List.prefix_concat_iff.mp hpre with heq | hpre
  · obtain ⟨rfl, hlast⟩ := List.append_inj' heq rfl
    simp only [List.cons.injEq, Prod.mk.injEq, and_true] at hlast
    exact he p key data hscan hlast.1.symm
  · exact h past p key data s' hscan hpre

theorem ScansOk.sys {fuel : ℕ} {allowed : P → Op → Prop} {hist : DbHist P}
    (h : ScansOk fuel allowed hist) (p : P) (o : Op) (c : Call) (s : Shared P) :
    ScansOk fuel allowed (hist ++ [(.sys p o c, s)]) :=
  h.extend _ _ fun _ _ _ _ he => by cases he

theorem SerialOk.sys {hist : DbHist P} {abs : Map} {expect : P → Option (KeyOp × Res)}
    (h : SerialOk hist abs expect) {p : P} {o : Op} {c : Call} (hc : lockEvent (.sys p o c) = none)
    (s : Shared P) : SerialOk (hist ++ [(.sys p o c, s)]) abs expect := by
  intro hno
  rw [lockOrder_concat, hc, Option.toList_none, List.append_nil]
  obtain ⟨habs, hans⟩ := h ((Hist.noExit_append _ _).mp hno).1
  refine ⟨habs, fun q => ?_⟩
  rw [answers_concat, List.append_nil]
  exact hans q

variable {fuel : ℕ} {allowed : P → Op → Prop} {w : DbWorld P} {p : P}

/-- A call that leaves the shared state alone leaves everything alone. -/
theorem Inv.quiet (hinv : Inv fuel allowed w) (o : Op) {c : Call} (hc : Quiet c) :
    Inv fuel allowed (w.after (.sys p o c) w.shared w.ghost) where
  files := hinv.files
  records := hinv.records
  lists := hinv.lists
  locks := hinv.locks
  agrees := hinv.agrees
  serial := hinv.serial.sys (lockEvent_quiet p o hc) _
  origins := hinv.origins.sys p o c _
  scans := hinv.scans.sys p o c _

omit [DecidableEq P] in
theorem Rely.quiet (w : DbWorld P) (q p : P) (o : Op) (c : Call) :
    Rely q w (w.after (.sys p o c) w.shared w.ghost) :=
  { Rely.refl q w with
    hist := ⟨[(.sys p o c, w.shared)], rfl, fun e he => by
      rw [List.mem_singleton.mp he]
      exact id⟩ }

/-- A write that is a change of `p` keeps the outline. -/
theorem Change.moves (hinv : Inv fuel allowed w) {g' : Ghost P} (hc : Change p w.ghost g')
    {s : Shared P} (hfiles : s.files = g'.st.files) (hlocks : s.locks = w.shared.locks)
    (hrecs : Records g'.st g'.maker)
    (hlists : Lists g'.st.offs g'.st.body g'.place g'.chain g'.free (g'.del.links g'.st.ptr))
    (hdel : g'.del.Locked w.ghost.held g'.place)
    (horig : Origins w.hist g'.st g'.place g'.del) (o : Op) {c : Call} (hq : Quiet c) :
    (outline fuel allowed).Moves p w (w.after (.sys p o c) s g') := by
  refine ⟨?_, fun q hq' => hc.rely hinv.locks hq' o c s⟩
  exact {
    files := hfiles
    records := hrecs
    lists := hlists
    locks := {
      regional := by
        change Regional s.locks g'.held
        rw [hlocks, hc.held]
        exact hinv.locks.regional
      compat := by
        change ∀ p q, p ≠ q → ∀ r t t', g'.held p r = some t → g'.held q r = some t' → _
        rw [hc.held]
        exact hinv.locks.compat
      deleting := by
        change g'.del.Locked g'.held g'.place
        rw [hc.held]
        exact hdel }
    agrees := hc.agrees hinv.lists hinv.agrees
    serial := by
      have := hinv.serial.sys (lockEvent_quiet p o hq) s
      change SerialOk (w.hist ++ [(.sys p o c, s)]) g'.abs g'.expect
      rwa [hc.abs, hc.expect]
    origins := horig.sys p o c s
    scans := hinv.scans.sys p o c s }

end Quiet

end Apue.Db
