import Apue.DbEvents

/-!
Rules for the single calls of an operation, and what a process knows between
them. A process that has locked a chain or holds a record knows what it reads
there, whatever the others do meanwhile; the functions that only read are taken
over from the module DbReads.
-/
namespace Apue.Db

open Programs Decimal ByteFiles Pointers Threads

variable {P : Type} [DecidableEq P] {fuel : ℕ} {allowed : P → Op → Prop} {w₀ : DbWorld P}
variable {p : P} {op : Op} {pos : Pos}

/-- A failed check stops the process. -/
theorem wp_abort {α : Type} {msg : String} {post : α → Pos → DbWorld P → Prop}
    (h : MayStop p w₀) : (outline fuel allowed).Wp p op (.abort msg) pos w₀ post :=
  fun _ hinv hr => moves_exit hinv (h.stable hr) op

theorem wp_errDumpIf {cond : Prop} [Decidable cond] {msg : String}
    {post : Unit → Pos → DbWorld P → Prop} (habort : cond → MayStop p w₀)
    (h : ¬ cond → post () pos w₀) :
    (outline fuel allowed).Wp p op (errDumpIf cond msg) pos w₀ post := by
  unfold errDumpIf
  split
  · exact wp_abort (habort ‹_›)
  · exact h ‹_›

theorem wp_check {cond : Prop} [Decidable cond] {msg : String}
    {post : Unit → Pos → DbWorld P → Prop} (hc : ¬ cond) (h : post () pos w₀) :
    (outline fuel allowed).Wp p op (errDumpIf cond msg) pos w₀ post :=
  wp_errDumpIf (fun hcon => absurd hcon hc) fun _ => h

omit [DecidableEq P] in
private theorem shared_ext {s s' : Shared P} (hf : s.files = s'.files) (hl : s.locks = s'.locks) :
    s = s' := by
  cases s
  cases s'
  cases hf
  cases hl
  rfl

private theorem lockCall_quiet {c : Call} (hq : Quiet c) (locks : LockTable P) :
    lockCall p c locks = locks := by
  cases c <;> first | rfl | exact hq.elim

/-- A seek or a read: the world it leads to differs in its history only. -/
theorem wp_quietAt {c : Call} (hq : Quiet c)
    (hfiles : ∀ files, (fileCall c (files, pos)).2.1 = files)
    {post : c.Ret → Pos → DbWorld P → Prop}
    (h : ∀ w, Inv fuel allowed w → Rely p w₀ w →
      Inv fuel allowed (w.after (.sys p op c) w.shared w.ghost) →
      post (fileCall c (w.shared.files, pos)).1 (fileCall c (w.shared.files, pos)).2.2
        (w.after (.sys p op c) w.shared w.ghost)) :
    (outline fuel allowed).Wp p op (.call c .ret) pos w₀ post := by
  intro w hinv hr r s pos' hexec
  obtain ⟨-, hcall, hlocks⟩ := hexec
  obtain rfl : s = w.shared := by
    refine shared_ext ?_ (hlocks.trans (lockCall_quiet hq _))
    have := hfiles w.shared.files
    rw [hcall] at this
    exact this
  have hinv' := hinv.quiet (p := p) op hq
  have hpost := h w hinv hr hinv'
  rw [hcall] at hpost
  exact ⟨w.ghost, ⟨hinv', fun q _ => Rely.quiet w q p op c⟩, hpost⟩

theorem wp_quiet {c : Call} (hq : Quiet c) (hfiles : ∀ files, (fileCall c (files, pos)).2.1 = files)
    {post : c.Ret → Pos → DbWorld P → Prop}
    (h : ∀ w, Inv fuel allowed w → Rely p w₀ w →
      post (fileCall c (w.shared.files, pos)).1 (fileCall c (w.shared.files, pos)).2.2 w) :
    (outline fuel allowed).Wp p op (.call c .ret) pos w₀ post :=
  wp_quietAt hq hfiles fun w _ hr hinv' => h _ hinv' (hr.trans (Rely.quiet w p p op c))

theorem wp_seek {fd : Fd} {off : ℕ} {post : ℤ → Pos → DbWorld P → Prop}
    (h : ∀ w, Inv fuel allowed w → Rely p w₀ w → post off (pos.set fd off) w) :
    (outline fuel allowed).Wp p op (lseek fd off .seekSet) pos w₀ post := by
  have hcall : ∀ files, fileCall (.lseek fd off .seekSet) (files, pos) =
      ((off : ℤ), files, pos.set fd off) := by
    intro files
    simp only [fileCall, seekBase, Int.zero_add, if_neg (not_lt.mpr (Int.natCast_nonneg off)),
      Int.toNat_natCast]
  refine wp_quiet (c := .lseek fd off .seekSet) trivial (fun files => ?_) fun w hinv hr => ?_
  · rw [hcall]
  · rw [hcall]
    exact h w hinv hr

theorem wp_seekEnd {fd : Fd} {post : ℤ → Pos → DbWorld P → Prop}
    (h : ∀ w, Inv fuel allowed w → Rely p w₀ w →
      post (w.shared.files.get fd).length (pos.set fd (w.shared.files.get fd).length) w) :
    (outline fuel allowed).Wp p op (lseek fd 0 .seekEnd) pos w₀ post := by
  have hcall : ∀ files : Files, fileCall (.lseek fd 0 .seekEnd) (files, pos) =
      (((files.get fd).length : ℤ), files, pos.set fd (files.get fd).length) := by
    intro files
    simp only [fileCall, seekBase, Int.add_zero, if_neg (not_lt.mpr (Int.natCast_nonneg _)),
      Int.toNat_natCast]
  refine wp_quiet (c := .lseek fd 0 .seekEnd) trivial (fun files => ?_) fun w hinv hr => ?_
  · rw [hcall]
  · rw [hcall]
    exact h w hinv hr

/-- What is known to stand in the files as long as the others only do what `p`
relies on. -/
def Known (fuel : ℕ) (allowed : P → Op → Prop) (p : P) (w₀ : DbWorld P) : Knowledge :=
  fun fd off bytes => ∀ w, Inv fuel allowed w → Rely p w₀ w →
    Contains (w.shared.files.get fd) off bytes

/-- A program that reads known bytes returns what it should. -/
theorem wp_reads {α : Type} {prog : Prog sig α} (wpost : α → Pos → Prop)
    {post : α → Pos → DbWorld P → Prop} (hinv₀ : Inv fuel allowed w₀)
    (hread : ReadWp (Known fuel allowed p w₀) prog pos wpost)
    (h : ∀ a pos' w, Inv fuel allowed w → Rely p w₀ w → wpost a pos' → post a pos' w) :
    (outline fuel allowed).Wp p op prog pos w₀ post := by
  have hgen : ∀ w₁, Inv fuel allowed w₁ → Rely p w₀ w₁ →
      (outline fuel allowed).Wp p op prog pos w₁ post := by
    induction prog generalizing pos with
    | ret a => exact fun w₁ hinv₁ hr₁ => h a pos w₁ hinv₁ hr₁ hread
    | abort msg => exact hread.elim
    | diverge => exact hread.elim
    | call c k ih =>
      intro w₁ _ hr₁
      have hstep : ∀ (hq : Quiet c) (hfiles : ∀ files, (fileCall c (files, pos)).2.1 = files),
          (∀ w, Inv fuel allowed w → Rely p w₀ w →
            ReadWp (Known fuel allowed p w₀) (k (fileCall c (w.shared.files, pos)).1)
              (fileCall c (w.shared.files, pos)).2.2 wpost) →
          (outline fuel allowed).Wp p op (.call c k) pos w₁ post := by
        intro hq hfiles hk
        have hcall : (outline fuel allowed).Wp p op (.call c .ret) pos w₁ fun a l' w' =>
            (outline fuel allowed).Wp p op (k a) l' w' post :=
          wp_quiet hq hfiles fun w hinv hr =>
            ih _ (hk w hinv (hr₁.trans hr)) w hinv (hr₁.trans hr)
        exact (outline fuel allowed).wp_bind hcall
      cases c with
      | lseek fd off wh =>
        cases wh with
        | seekSet =>
          have hcall : ∀ files, fileCall (.lseek fd off .seekSet) (files, pos) =
              (off, files, pos.set fd off.toNat) := fun files => by
            simp only [fileCall, seekBase, Int.zero_add, if_neg (not_lt.mpr hread.1)]
          refine hstep trivial (fun files => by rw [hcall]) fun w _ _ => ?_
          rw [hcall]
          exact hread.2
        | seekCur => exact hread.elim
        | seekEnd => exact hread.elim
      | read fd n =>
        obtain ⟨bytes, hlen, hknown, hk⟩ := hread
        refine hstep trivial (fun files => rfl) fun w hinv hr => ?_
        simp only [fileCall, (hknown w hinv hr).readAt_eq hlen, hlen]
        exact hk
      | write fd bs => exact hread.elim
      | setlkw fd type start len => exact hread.elim
      | unlck fd start len => exact hread.elim
      | fstat fd => exact hread.elim
  exact hgen w₀ hinv₀ (Rely.refl p w₀)

/-- A write: the world it leads to is up to the caller. -/
theorem wp_write {fd : Fd} (bytes : List Byte) {post : ℤ → Pos → DbWorld P → Prop}
    (h : ∀ w s, Inv fuel allowed w → Rely p w₀ w →
      s.files = w.shared.files.set fd (writeAt (w.shared.files.get fd) (pos.get fd) bytes) →
      s.locks = w.shared.locks →
      ∃ g, (outline fuel allowed).Moves p w (w.after (.sys p op (.write fd bytes)) s g) ∧
        post bytes.length (pos.set fd (pos.get fd + bytes.length))
          (w.after (.sys p op (.write fd bytes)) s g)) :
    (outline fuel allowed).Wp p op (write fd bytes) pos w₀ post := by
  intro w hinv hr r s pos' hexec
  obtain ⟨-, hcall, hlocks⟩ := hexec
  simp only [fileCall, Prod.mk.injEq] at hcall
  obtain ⟨rfl, hfiles, rfl⟩ := hcall
  exact h w s hinv hr hfiles.symm hlocks

/-- A lock call: it returns when it is granted. -/
theorem wp_setlkw {fd : Fd} {type : LockType} {start len : ℕ}
    {post : ℤ → Pos → DbWorld P → Prop}
    (h : ∀ w s, Inv fuel allowed w → Rely p w₀ w →
      Granted w.shared.locks p (.setlkw fd type start len) → s.files = w.shared.files →
      s.locks = setLocks w.shared.locks p fd start len (some type) →
      ∃ g, (outline fuel allowed).Moves p w (w.after (.sys p op (.setlkw fd type start len)) s g) ∧
        post 0 pos (w.after (.sys p op (.setlkw fd type start len)) s g)) :
    (outline fuel allowed).Wp p op (.call (.setlkw fd type start len) .ret) pos w₀ post := by
  intro w hinv hr r s pos' hexec
  obtain ⟨hgranted, hcall, hlocks⟩ := hexec
  simp only [fileCall, Prod.mk.injEq] at hcall
  obtain ⟨rfl, hfiles, rfl⟩ := hcall
  exact h w s hinv hr hgranted hfiles.symm hlocks

theorem wp_unlck {fd : Fd} {start len : ℕ} {post : ℤ → Pos → DbWorld P → Prop}
    (h : ∀ w s, Inv fuel allowed w → Rely p w₀ w → s.files = w.shared.files →
      s.locks = setLocks w.shared.locks p fd start len none →
      ∃ g, (outline fuel allowed).Moves p w (w.after (.sys p op (.unlck fd start len)) s g) ∧
        post 0 pos (w.after (.sys p op (.unlck fd start len)) s g)) :
    (outline fuel allowed).Wp p op (.call (.unlck fd start len) .ret) pos w₀ post := by
  intro w hinv hr r s pos' hexec
  obtain ⟨-, hcall, hlocks⟩ := hexec
  simp only [fileCall, Prod.mk.injEq] at hcall
  obtain ⟨rfl, hfiles, rfl⟩ := hcall
  exact h w s hinv hr hfiles.symm hlocks

section Knowledge

variable (hinv₀ : Inv fuel allowed w₀)
include hinv₀

omit hinv₀ in
theorem known_ptr {c : ℕ} (hc : w₀.ghost.st.IsCell c)
    (hs : Sees (w₀.ghost.held p) p (w₀.ghost.place c)) :
    Known fuel allowed p w₀ .idx c (ptrText (w₀.ghost.st.ptr c)) := by
  intro w hinv hr
  rw [hinv.files, ← (hr.cells c hc hs).2]
  exact hinv.records.ok.contains_ptr (hr.isCell hc)

theorem known_rec {o : ℕ} (ho : o ∈ w₀.ghost.st.offs)
    (hs : Sees (w₀.ghost.held p) p (w₀.ghost.place o)) :
    HasRec (Known fuel allowed p w₀) o (w₀.ghost.st.ptr o) (w₀.ghost.st.body o) where
  head := by
    intro w hinv hr
    rw [hinv.files, ← (hr.cells o (Or.inr ho) hs).2, ← (hr.recs o ho hs).1]
    exact hinv.records.ok.contains_head (hr.offs.subset ho)
  text := by
    intro w hinv hr
    rw [hinv.files, ← (hr.recs o ho hs).1]
    exact hinv.records.ok.contains_text (hr.offs.subset ho)
  ptr_le := hinv₀.records.ok.ptr_le o
  ok := hinv₀.records.ok.body_ok o ho
  pos := by
    have := (hinv₀.records.ok.off_bounds ho).1
    omega

omit hinv₀ in
theorem known_dat {o : ℕ} (ho : o ∈ w₀.ghost.st.offs)
    (hs : Sees (w₀.ghost.held p) p (w₀.ghost.place o)) :
    Known fuel allowed p w₀ .dat (w₀.ghost.st.body o).datoff
      (w₀.ghost.st.dat (w₀.ghost.st.body o).datoff ++ [NEWLINE]) := by
  intro w hinv hr
  have hd := hinv.records.dat_mem o (hr.offs.subset ho)
  rw [(hr.recs o ho hs).1] at hd
  rw [hinv.files, ← (hr.recs o ho hs).2]
  exact hinv.records.ok.contains_dat hd

/-- A chain that `p` has locked, when `p` is not deleting from it. -/
theorem Inv.linked_chain {h : ℕ} (hh : h < NHASH_DEF)
    (hheld : w₀.ghost.held p (.chain h) ≠ none)
    (hnofree : w₀.ghost.held p .free ≠ some .wrlck) :
    Linked w₀.ghost.st.ptr (cell h) (w₀.ghost.chain h) := by
  have hspare : ∀ x, w₀.ghost.place x = .chain h → w₀.ghost.del.Spares x := by
    intro x hx
    refine hinv₀.locks.spares fun i hi q hfree hchain => ?_
    rw [hx] at hi
    obtain rfl := Place.chain.inj hi
    by_cases hqp : q = p
    · exact hnofree (hqp ▸ hfree)
    · obtain ⟨t, ht⟩ := Option.ne_none_iff_exists'.mp hheld
      exact nomatch (hinv₀.locks.compat q p hqp _ _ _ hchain ht).1
  refine linked_congr ?_ (fun a ha => ?_) (hinv₀.lists.linked_chain h hh)
  · exact (Deletion.links_of_spares (hspare _ (hinv₀.lists.place_cell h hh)) _).symm
  · exact (Deletion.links_of_spares (hspare _ ((hinv₀.lists.mem_chain h hh a).mp ha).2) _).symm

theorem Inv.linked_free : Linked w₀.ghost.st.ptr FREE_OFF w₀.ghost.free := by
  have hspare : ∀ x, w₀.ghost.place x = .free → w₀.ghost.del.Spares x := by
    intro x hx
    refine hinv₀.locks.spares fun i hi => ?_
    rw [hx] at hi
    cases hi
  refine linked_congr ?_ (fun a ha => ?_) hinv₀.lists.linked_free
  · exact (Deletion.links_of_spares (hspare _ hinv₀.lists.place_free) _).symm
  · exact (Deletion.links_of_spares (hspare _ ((hinv₀.lists.mem_free a).mp ha).2) _).symm

end Knowledge

/-- What a process knows in the middle of the operation `o` on a key: the locks
it holds, the answer it owes, and the map that the chain of the key is to agree
with when it is unlocked. `m` is the map before the operation. -/
structure Working (p : P) (o : KeyOp) (m : Map) (held : Held) (w : DbWorld P) : Prop where
  held : w.ghost.held p = held
  current : Hist.current w.hist p = some (.keyed o)
  expect : w.ghost.expect p = some (o, (mapOp o m).2)
  abs : ∀ key, hashOf key = hashOf o.key → w.ghost.abs key = (mapOp o m).1 key

/-- The chain `h` holds the part `m` of the map. -/
def Contents (h : ℕ) (m : Map) (w : DbWorld P) : Prop :=
  ∀ key, hashOf key = h → w.ghost.st.lookup (w.ghost.chain h) key = m key

/-- Process `p` holds no record and no data without a record. -/
structure EmptyHands (p : P) (w : DbWorld P) : Prop where
  not_owned : ∀ o ∈ w.ghost.st.offs, w.ghost.place o ≠ .proc p
  not_made : ∀ d ∈ w.ghost.st.doffs, w.ghost.maker d ≠ some p

omit [DecidableEq P] in
theorem EmptyHands.mayStop {w : DbWorld P} (h : EmptyHands p w)
    (hfree : w.ghost.held p .free ≠ some .wrlck) : MayStop p w :=
  ⟨hfree, fun o ho hpl => absurd hpl (h.not_owned o ho)⟩

section Stable

variable {w w' : DbWorld P} {o : KeyOp} {m : Map} {held : Held} {h : ℕ}

theorem Working.stable (hw : Working p o m held w) (hr : Rely p w w')
    (hheld : held (.chain (hashOf o.key)) ≠ none) : Working p o m held w' where
  held := hr.held.trans hw.held
  current := hr.current.trans hw.current
  expect := hr.expect.trans hw.expect
  abs key hk := by
    have hne : w.ghost.held p (.chain (hashOf o.key)) ≠ none := by
      rw [hw.held]
      exact hheld
    exact ((hr.chain _ hne).2 key hk).trans (hw.abs key hk)

/-- A step of `p` itself that is not the lock of a chain. -/
theorem Working.step (hw : Working p o m held w) {c : Call} {s : Shared P} {g : Ghost P}
    {held' : Held} (hheld : g.held p = held') (hexpect : g.expect = w.ghost.expect)
    (habs : g.abs = w.ghost.abs) : Working p o m held' (w.after (.sys p op c) s g) where
  held := hheld
  current := (current_sys _ _ _ _ _ _).trans hw.current
  expect := (congrFun hexpect p).trans hw.expect
  abs key hk := (congrFun habs key).trans (hw.abs key hk)

omit [DecidableEq P] in
theorem EmptyHands.stable (he : EmptyHands p w) (hr : Rely p w w') : EmptyHands p w' where
  not_owned a ha hp := he.not_owned a (hr.owned a ha hp).1 (hr.owned a ha hp).2
  not_made d hd hm := he.not_made d ((hr.made d).mp ⟨hd, hm⟩).1 ((hr.made d).mp ⟨hd, hm⟩).2

/-- A chain that `p` has locked keeps its records. -/
theorem sameOn_chain (hinv : Inv fuel allowed w) (hr : Rely p w w') (hh : h < NHASH_DEF)
    (hheld : w.ghost.held p (.chain h) ≠ none) :
    w.ghost.st.SameOn w'.ghost.st (w.ghost.chain h) := by
  intro a ha
  obtain ⟨hmem, hpl⟩ := (hinv.lists.mem_chain h hh a).mp ha
  refine hr.recs a hmem ?_
  rw [hpl]
  exact hheld

theorem Contents.stable (hc : Contents h m w) (hinv : Inv fuel allowed w) (hr : Rely p w w')
    (hh : h < NHASH_DEF) (hheld : w.ghost.held p (.chain h) ≠ none) : Contents h m w' := by
  intro key hk
  rw [(hr.chain h hheld).1, (sameOn_chain hinv hr hh hheld).lookup]
  exact hc key hk

end Stable

end Apue.Db
