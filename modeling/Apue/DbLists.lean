import Apue.DbInvariant

/-!
Surgery on the hash chains and the free list. Each operation moves one record
from a list to the hands of a process or back, and changes one or two pointers.
-/
namespace Apue.Db

open Programs Decimal ByteFiles Pointers Threads

theorem cell_mem_heads {h : ℕ} (hh : h < NHASH_DEF) : cell h ∈ heads := by
  refine mem_heads.mpr ⟨h + 1, by omega, ?_⟩
  simp only [cell, HASH_OFF]
  ring

theorem free_mem_heads : FREE_OFF ∈ heads := mem_heads.mpr ⟨0, by decide, rfl⟩

theorem cell_injective {h i : ℕ} (he : cell h = cell i) : h = i := by
  simp only [cell, PTR_SZ, HASH_OFF] at he
  omega

theorem cell_ne_free (h : ℕ) : cell h ≠ FREE_OFF := by
  simp only [cell, PTR_SZ, HASH_OFF, FREE_OFF]
  omega

theorem Store.Ok.ne_cell {st : Store} (h : st.Ok) {o i : ℕ} (ho : o ∈ st.offs)
    (hi : i < NHASH_DEF) : cell i ≠ o := fun he => h.not_head ho (he ▸ cell_mem_heads hi)

theorem Store.Ok.ne_free {st : Store} (h : st.Ok) {o : ℕ} (ho : o ∈ st.offs) : FREE_OFF ≠ o :=
  fun he => h.not_head ho (he ▸ free_mem_heads)

/-- A list none of whose cells is written stays linked. -/
theorem linked_update {links : ℕ → ℕ} {c x v : ℕ} {l : List ℕ} (hl : Linked links c l)
    (hc : c ≠ x) (hx : x ∉ l) : Linked (Function.update links x v) c l :=
  linked_congr (Function.update_of_ne hc _ _)
    (fun a ha => Function.update_of_ne (fun he => hx (by rwa [← he])) _ _) hl

theorem Store.Ok.mem_linked_le {st : Store} (h : st.Ok) {c o : ℕ} {l : List ℕ}
    (hl : Linked st.ptr c l) (ho : o ∈ l) : o ≤ PTR_MAX := by
  rcases path_mem_value hl ho with he | ⟨x, he⟩
  · exact he ▸ h.ptr_le _
  · exact he ▸ h.ptr_le _

/-- A list of records that pointers reach is not longer than there are offsets. -/
theorem Store.Ok.length_le {st : Store} (h : st.Ok) {l : List ℕ} (hnodup : l.Nodup)
    (hmem : ∀ o ∈ l, o ∈ st.offs) (hle : ∀ o ∈ l, o ≤ PTR_MAX) : l.length ≤ PTR_MAX - 966 := by
  have hsub : l ⊆ List.range' 967 (PTR_MAX - 966) := by
    intro o ho
    have hle := hle o ho
    have hge := (h.off_bounds (hmem o ho)).1
    rw [List.mem_range'_1]
    omega
  have := (List.subperm_of_subset hnodup hsub).length_le
  rwa [List.length_range'] at this

theorem Store.Ok.length_linked_le {st : Store} (h : st.Ok) {c : ℕ} {l : List ℕ}
    (hl : Linked st.ptr c l) (hnodup : l.Nodup) (hmem : ∀ o ∈ l, o ∈ st.offs) :
    l.length ≤ PTR_MAX :=
  (h.length_le hnodup hmem fun _ => h.mem_linked_le hl).trans (Nat.sub_le _ _)

/-- An update that adds no record and changes the length of none keeps the files in
their sizes. -/
theorem Store.Ok.length_files {st st' : Store} (h : st.Ok) (h' : st'.Ok) (hoffs : st'.offs = st.offs)
    (htext : ∀ o ∈ st.offs, (st'.body o).text.length = (st.body o).text.length)
    (hdoffs : st'.doffs = st.doffs)
    (hdat : ∀ d ∈ st.doffs, (st'.dat d).length = (st.dat d).length) :
    st'.idxFile.length = st.idxFile.length ∧ st'.datFile.length = st.datFile.length := by
  constructor
  · rw [h'.length_idxFile, h.length_idxFile, hoffs]
    refine endOf_congr fun o ho => ?_
    rw [h'.length_recBlock (hoffs ▸ ho), h.length_recBlock ho, htext o ho]
  · rw [Store.Ok.length_datFile, Store.Ok.length_datFile, hdoffs]
    refine endOf_congr fun d hd => ?_
    simp only [Store.datBlock, List.length_append, hdat d hd]

variable {P : Type} {offs : List ℕ} {body : ℕ → Body} {place : ℕ → Place P}
variable {chain : ℕ → List ℕ} {free : List ℕ} {links : ℕ → ℕ}

/-- The record `o`, old or new, goes to the place `x` with the body `b`. -/
private theorem Lists.move (hL : Lists offs body place chain free links)
    (chain' : ℕ → List ℕ) (free' : List ℕ) (links' : ℕ → ℕ) {o : ℕ} {x : Place P} {b : Body}
    {offs' : List ℕ} (hno : o ∉ heads) (ho : o ∈ offs') (hoffs : ∀ a, a ≠ o → (a ∈ offs' ↔ a ∈ offs))
    (hkey : ∀ h, x = .chain h → KeyOk b.key ∧ hashOf b.key = h ∧
      ∀ a ∈ offs, a ≠ o → place a = .chain h → (body a).key ≠ b.key)
    (hblank : x = .free → Blank b.key)
    (hchain : ∀ h < NHASH_DEF, ∀ a, a ∈ chain' h ↔ a = o ∧ x = .chain h ∨ a ≠ o ∧ a ∈ chain h)
    (hfree : ∀ a, a ∈ free' ↔ a = o ∧ x = .free ∨ a ≠ o ∧ a ∈ free)
    (hnc : ∀ h < NHASH_DEF, (chain' h).Nodup) (hnf : free'.Nodup)
    (hlc : ∀ h < NHASH_DEF, Linked links' (cell h) (chain' h))
    (hlf : Linked links' FREE_OFF free') :
    Lists offs' (Function.update body o b) (Function.update place o x) chain' free' links' := by
  have hcell : ∀ {h}, h < NHASH_DEF → cell h ≠ o := fun hh he => hno (he ▸ cell_mem_heads hh)
  have hfreeoff : FREE_OFF ≠ o := fun he => hno (he ▸ free_mem_heads)
  -- a record on a list after the move is `o` itself or was there before
  have hcases : ∀ {a}, a ∈ offs' → a = o ∧ Function.update place o x a = x ∧
      Function.update body o b a = b ∨ a ≠ o ∧ a ∈ offs ∧
      Function.update place o x a = place a ∧ Function.update body o b a = body a := by
    intro a ha
    by_cases hao : a = o
    · subst hao
      exact Or.inl ⟨rfl, Function.update_self _ _ _, Function.update_self _ _ _⟩
    · exact Or.inr ⟨hao, (hoffs a hao).mp ha, Function.update_of_ne hao _ _,
        Function.update_of_ne hao _ _⟩
  exact {
    place_cell := fun h hh => (Function.update_of_ne (hcell hh) _ _).trans (hL.place_cell h hh)
    place_free := (Function.update_of_ne hfreeoff _ _).trans hL.place_free
    isCell := fun c h hpl => by
      by_cases hco : c = o
      · exact Or.inr (hco ▸ ho)
      · rw [Function.update_of_ne hco] at hpl
        exact (hL.isCell c h hpl).imp_right (hoffs c hco).mpr
    mem_chain := fun h hh a => by
      rw [hchain h hh a]
      by_cases hao : a = o
      · subst hao
        simp only [true_and, ne_eq, not_true_eq_false, false_and, or_false, ho,
          Function.update_self]
      · simp only [hao, false_and, ne_eq, not_false_eq_true, true_and, false_or, hL.mem_chain h hh a,
          hoffs a hao, Function.update_of_ne hao]
    mem_free := fun a => by
      rw [hfree a]
      by_cases hao : a = o
      · subst hao
        simp only [true_and, ne_eq, not_true_eq_false, false_and, or_false, ho,
          Function.update_self]
      · simp only [hao, false_and, ne_eq, not_false_eq_true, true_and, false_or, hL.mem_free a,
          hoffs a hao, Function.update_of_ne hao]
    nodup_chain := hnc
    nodup_free := hnf
    linked_chain := hlc
    linked_free := hlf
    key_ok := fun a ha h hpl => by
      rcases hcases ha with ⟨-, hp, hb⟩ | ⟨-, hmem, hp, hb⟩
      · rw [hp] at hpl
        rw [hb]
        exact ⟨(hkey h hpl).1, (hkey h hpl).2.1⟩
      · rw [hp] at hpl
        rw [hb]
        exact hL.key_ok a hmem h hpl
    key_inj := fun a ha a' ha' h hpl hpl' hk => by
      rcases hcases ha with ⟨rfl, hp, hb⟩ | ⟨hao, hmem, hp, hb⟩
      · rcases hcases ha' with ⟨rfl, -, -⟩ | ⟨hao', hmem', hp', hb'⟩
        · rfl
        · rw [hp] at hpl
          rw [hp'] at hpl'
          rw [hb, hb'] at hk
          exact absurd hk.symm ((hkey h hpl).2.2 a' hmem' hao' hpl')
      · rcases hcases ha' with ⟨rfl, hp', hb'⟩ | ⟨hao', hmem', hp', hb'⟩
        · rw [hp] at hpl
          rw [hp'] at hpl'
          rw [hb, hb'] at hk
          exact absurd hk ((hkey h hpl').2.2 a hmem hao hpl)
        · rw [hp] at hpl
          rw [hp'] at hpl'
          rw [hb, hb'] at hk
          exact hL.key_inj a hmem a' hmem' h hpl hpl' hk
    key_blank := fun a ha hpl => by
      rcases hcases ha with ⟨-, hp, hb⟩ | ⟨-, hmem, hp, hb⟩
      · rw [hp] at hpl
        rw [hb]
        exact hblank hpl
      · rw [hp] at hpl
        rw [hb]
        exact hL.key_blank a hmem hpl }

/-- A record that is on no chain. -/
theorem Lists.not_mem_chain (hL : Lists offs body place chain free links) {o h : ℕ}
    (hh : h < NHASH_DEF) (hpl : o ∈ offs → place o ≠ .chain h) : o ∉ chain h := fun hmem =>
  hpl ((hL.mem_chain h hh o).mp hmem).1 ((hL.mem_chain h hh o).mp hmem).2

theorem Lists.not_mem_free (hL : Lists offs body place chain free links) {o : ℕ}
    (hpl : o ∈ offs → place o ≠ .free) : o ∉ free := fun hmem =>
  hpl ((hL.mem_free o).mp hmem).1 ((hL.mem_free o).mp hmem).2

/-- The cells of the lists are different from each other. -/
theorem Lists.cell_not_mem (hL : Lists offs body place chain free links)
    (hno : ∀ o ∈ offs, o ∉ heads) {c : ℕ} (hc : c ∈ heads) {h : ℕ} (hh : h < NHASH_DEF) :
    c ∉ chain h := fun hmem => hno c ((hL.mem_chain h hh c).mp hmem).1 hc

theorem Lists.cell_not_mem_free (hL : Lists offs body place chain free links)
    (hno : ∀ o ∈ offs, o ∉ heads) {c : ℕ} (hc : c ∈ heads) : c ∉ free :=
  fun hmem => hno c ((hL.mem_free c).mp hmem).1 hc

/-- The cell that points to a record of the free list. -/
theorem Lists.lastCell_free (hL : Lists offs body place chain free links) {o : ℕ}
    {pre post : List ℕ} (hfree : free = pre ++ o :: post) :
    (lastCell FREE_OFF pre ∈ heads ∨ lastCell FREE_OFF pre ∈ offs) ∧
      place (lastCell FREE_OFF pre) = .free := by
  rcases List.mem_cons.mp (lastCell_mem FREE_OFF pre) with he | hm
  · rw [he]
    exact ⟨Or.inl free_mem_heads, hL.place_free⟩
  · have := (hL.mem_free (lastCell FREE_OFF pre)).mp (by
      rw [hfree]
      exact List.mem_append_left _ hm)
    exact ⟨Or.inr this.1, this.2⟩

section Surgery

private theorem mem_other {o : ℕ} {l : List ℕ} (h : o ∉ l) {x : Prop} (hx : ¬ x) (a : ℕ) :
    a ∈ l ↔ a = o ∧ x ∨ a ≠ o ∧ a ∈ l := by
  constructor
  · intro ha
    exact Or.inr ⟨fun he => h (he ▸ ha), ha⟩
  · rintro (⟨-, hcon⟩ | ⟨-, ha⟩)
    · exact absurd hcon hx
    · exact ha

private theorem mem_removed {o : ℕ} {l pre post : List ℕ} (hl : l = pre ++ o :: post)
    (hnodup : l.Nodup) {x : Prop} (hx : ¬ x) (a : ℕ) :
    a ∈ pre ++ post ↔ a = o ∧ x ∨ a ≠ o ∧ a ∈ l := by
  subst hl
  have hsplit := List.nodup_cons.mp (List.nodup_middle.mp hnodup)
  constructor
  · intro ha
    refine Or.inr ⟨fun he => hsplit.1 (he ▸ ha), ?_⟩
    rcases List.mem_append.mp ha with ha | ha
    · exact List.mem_append_left _ ha
    · exact List.mem_append_right _ (List.mem_cons_of_mem _ ha)
  · rintro (⟨-, hcon⟩ | ⟨hao, ha⟩)
    · exact absurd hcon hx
    · rcases List.mem_append.mp ha with ha | ha
      · exact List.mem_append_left _ ha
      · exact List.mem_append_right _ ((List.mem_cons.mp ha).resolve_left hao)

variable (hL : Lists offs body place chain free links) (hno : ∀ o ∈ offs, o ∉ heads)
include hL hno

theorem Lists.pushFree {p : P} {o : ℕ} (ho : o ∈ offs) (hpl : place o = .proc p)
    (hblank : Blank (body o).key) (hlink : links o = links FREE_OFF) :
    Lists offs body (Function.update place o .free) chain (o :: free)
      (Function.update links FREE_OFF o) := by
  have hnf : o ∉ free := hL.not_mem_free fun _ => by rw [hpl]; nofun
  have hmove := hL.move chain (o :: free) (Function.update links FREE_OFF o) (o := o)
    (x := .free) (b := body o) (hno o ho) ho
    (fun _ _ => Iff.rfl) (fun _ hx => nomatch hx) (fun _ => hblank) ?_ ?_ hL.nodup_chain
    (List.nodup_cons.mpr ⟨hnf, hL.nodup_free⟩) ?_ ?_
  · rwa [Function.update_eq_self] at hmove
  · intro h hh a
    refine mem_other (hL.not_mem_chain hh fun _ => ?_) (nofun) a
    rw [hpl]
    nofun
  · intro a
    rw [List.mem_cons]
    by_cases hao : a = o
    · simp only [hao, true_or, ne_eq, not_true_eq_false, false_and, and_self, or_false]
    · simp only [hao, false_or, false_and, ne_eq, not_false_eq_true, true_and]
  · intro h hh
    exact linked_update (hL.linked_chain h hh) (cell_ne_free h)
      (hL.cell_not_mem hno free_mem_heads hh)
  · exact linked_insert (fun he => hno o ho (he ▸ free_mem_heads))
      (hL.cell_not_mem_free hno free_mem_heads) hlink hL.linked_free

theorem Lists.popFree {p : P} {o : ℕ} {pre post : List ℕ} (hfree : free = pre ++ o :: post) :
    Lists offs body (Function.update place o (.proc p)) chain (pre ++ post)
      (Function.update links (lastCell FREE_OFF pre) (links o)) := by
  have hmem : o ∈ free := by
    rw [hfree]
    exact List.mem_append_right _ List.mem_cons_self
  obtain ⟨ho, hpl⟩ := (hL.mem_free o).mp hmem
  have hzero := hL.cell_not_mem_free hno free_mem_heads
  have hlast : lastCell FREE_OFF pre = FREE_OFF ∨ lastCell FREE_OFF pre ∈ free := by
    refine (List.mem_cons.mp (lastCell_mem FREE_OFF pre)).imp_right fun hm => ?_
    rw [hfree]
    exact List.mem_append_left _ hm
  have hnodup := hL.nodup_free
  have hlinked := hL.linked_free
  rw [hfree] at hnodup hlinked hzero
  have hmove := hL.move chain (pre ++ post)
    (Function.update links (lastCell FREE_OFF pre) (links o)) (o := o) (x := .proc p)
    (b := body o) (hno o ho) ho
    (fun _ _ => Iff.rfl) (fun _ hx => nomatch hx) (fun hx => nomatch hx)
    ?_ (mem_removed hfree hL.nodup_free (nofun)) hL.nodup_chain
    (List.nodup_cons.mp (List.nodup_middle.mp hnodup)).2 ?_
    (linked_remove (List.nodup_cons.mpr ⟨hzero, hnodup⟩) hlinked)
  · rwa [Function.update_eq_self] at hmove
  · intro h hh a
    refine mem_other (hL.not_mem_chain hh fun _ => ?_) (nofun) a
    rw [hpl]
    nofun
  · intro h hh
    rcases hlast with he | hm
    · rw [he]
      exact linked_update (hL.linked_chain h hh) (cell_ne_free h)
        (hL.cell_not_mem hno free_mem_heads hh)
    · obtain ⟨hm, hplm⟩ := (hL.mem_free _).mp hm
      refine linked_update (hL.linked_chain h hh) ?_ (hL.not_mem_chain hh fun _ => ?_)
      · exact fun he => hno _ hm (he ▸ cell_mem_heads hh)
      · rw [hplm]
        nofun

/-- A new first record of a chain. -/
theorem Lists.link {p : P} {o h : ℕ} (hh : h < NHASH_DEF) (ho : o ∈ offs)
    (hpl : place o = .proc p) (hkey : KeyOk (body o).key) (hhash : hashOf (body o).key = h)
    (hnew : ∀ a ∈ chain h, (body a).key ≠ (body o).key) (hlink : links o = links (cell h)) :
    Lists offs body (Function.update place o (.chain h))
      (Function.update chain h (o :: chain h)) free (Function.update links (cell h) o) := by
  have hnone : ∀ i, i < NHASH_DEF → o ∉ chain i := fun i hi =>
    hL.not_mem_chain hi fun _ => by rw [hpl]; nofun
  have hmove := hL.move (Function.update chain h (o :: chain h)) free
    (Function.update links (cell h) o) (o := o) (x := .chain h) (b := body o)
    (hno o ho) ho (fun _ _ => Iff.rfl) ?_ (fun hx => nomatch hx) ?_ ?_ ?_ hL.nodup_free ?_ ?_
  · rwa [Function.update_eq_self] at hmove
  · intro i hi
    obtain rfl := Place.chain.inj hi
    exact ⟨hkey, hhash, fun a ha _ hpa => hnew a ((hL.mem_chain h hh a).mpr ⟨ha, hpa⟩)⟩
  · intro i hi a
    by_cases hih : i = h
    · subst hih
      rw [Function.update_self, List.mem_cons]
      by_cases hao : a = o
      · simp only [hao, true_or, ne_eq, not_true_eq_false, false_and, and_self, or_false]
      · simp only [hao, false_or, false_and, ne_eq, not_false_eq_true, true_and]
    · rw [Function.update_of_ne hih]
      exact mem_other (hnone i hi) (fun hx => hih (Place.chain.inj hx).symm) a
  · intro a
    refine mem_other (hL.not_mem_free fun _ => ?_) (nofun) a
    rw [hpl]
    nofun
  · intro i hi
    by_cases hih : i = h
    · subst hih
      rw [Function.update_self]
      exact List.nodup_cons.mpr ⟨hnone i hi, hL.nodup_chain i hi⟩
    · rw [Function.update_of_ne hih]
      exact hL.nodup_chain i hi
  · intro i hi
    by_cases hih : i = h
    · subst hih
      rw [Function.update_self]
      exact linked_insert (fun he => hno o ho (he ▸ cell_mem_heads hi))
        (hL.cell_not_mem hno (cell_mem_heads hi) hi) hlink (hL.linked_chain i hi)
    · rw [Function.update_of_ne hih]
      exact linked_update (hL.linked_chain i hi) (fun he => hih (cell_injective he))
        (hL.cell_not_mem hno (cell_mem_heads hh) hi)
  · exact linked_update hL.linked_free (cell_ne_free h).symm
      (hL.cell_not_mem_free hno (cell_mem_heads hh))

omit hno in
/-- A record in the hands of a process, old or new, gets a body and a pointer. -/
theorem Lists.rewrite {p : P} {o v : ℕ} {b : Body} {offs' : List ℕ} (hoh : o ∉ heads)
    (ho : o ∈ offs') (hoffs : ∀ a, a ≠ o → (a ∈ offs' ↔ a ∈ offs))
    (hpl : o ∈ offs → place o = .proc p) :
    Lists offs' (Function.update body o b) (Function.update place o (.proc p)) chain free
      (Function.update links o v) := by
  have hnc : ∀ i, i < NHASH_DEF → o ∉ chain i := fun i hi =>
    hL.not_mem_chain hi fun hm => by rw [hpl hm]; nofun
  have hnf : o ∉ free := hL.not_mem_free fun hm => by rw [hpl hm]; nofun
  refine hL.move _ _ _ hoh ho hoffs (fun _ hx => nomatch hx) (fun hx => nomatch hx)
    (fun i hi a => mem_other (hnc i hi) (nofun) a)
    (fun a => mem_other hnf (nofun) a) hL.nodup_chain hL.nodup_free ?_ ?_
  · intro i hi
    exact linked_update (hL.linked_chain i hi) (fun he => hoh (he ▸ cell_mem_heads hi)) (hnc i hi)
  · exact linked_update hL.linked_free (fun he => hoh (he ▸ free_mem_heads)) hnf

/-- A record leaves its chain; its body is rewritten, its own pointer set to
`f` and the cell before it to what followed it. -/
theorem Lists.unlink {p : P} {o h f : ℕ} {b : Body} {pre post : List ℕ} (hh : h < NHASH_DEF)
    (hch : chain h = pre ++ o :: post) :
    Lists offs (Function.update body o b) (Function.update place o (.proc p))
      (Function.update chain h (pre ++ post)) free
      (Function.update (Function.update links o f) (lastCell (cell h) pre) (links o)) := by
  have hmem : o ∈ chain h := by
    rw [hch]
    exact List.mem_append_right _ List.mem_cons_self
  obtain ⟨ho, hpl⟩ := (hL.mem_chain h hh o).mp hmem
  have hcell := hL.cell_not_mem hno (cell_mem_heads hh) hh
  have hlast : lastCell (cell h) pre = cell h ∨ lastCell (cell h) pre ∈ chain h := by
    refine (List.mem_cons.mp (lastCell_mem (cell h) pre)).imp_right fun hm => ?_
    rw [hch]
    exact List.mem_append_left _ hm
  have hnodup := hL.nodup_chain h hh
  have hlinked := hL.linked_chain h hh
  rw [hch] at hnodup hlinked hcell
  have hsplit := List.nodup_cons.mp (List.nodup_middle.mp hnodup)
  have hco : cell h ≠ o := fun he => hno o ho (he ▸ cell_mem_heads hh)
  have hne : lastCell (cell h) pre ≠ o := by
    intro he
    rcases List.mem_cons.mp (lastCell_mem (cell h) pre) with hc | hm
    · exact hco (hc.symm.trans he)
    · exact hsplit.1 (List.mem_append_left _ (he ▸ hm))
  -- no other list has the record or the cell before it
  have hother : ∀ {c l}, Linked links c l → c ≠ o → o ∉ l → c ≠ lastCell (cell h) pre →
      lastCell (cell h) pre ∉ l → Linked (Function.update (Function.update links o f)
        (lastCell (cell h) pre) (links o)) c l :=
    fun hl hc hol hc' hl' => linked_update (linked_update hl hc hol) hc' hl'
  refine hL.move _ _ _ (hno o ho) ho (fun _ _ => Iff.rfl) (fun _ hx => nomatch hx)
    (fun hx => nomatch hx) ?_ ?_ ?_ hL.nodup_free ?_ ?_
  · intro i hi a
    by_cases hih : i = h
    · subst hih
      rw [Function.update_self]
      exact mem_removed hch (hL.nodup_chain i hi) (nofun) a
    · rw [Function.update_of_ne hih]
      refine mem_other (hL.not_mem_chain hi fun _ he => ?_) (nofun) a
      rw [hpl] at he
      exact hih (Place.chain.inj he).symm
  · intro a
    refine mem_other (hL.not_mem_free fun _ => ?_) (nofun) a
    rw [hpl]
    nofun
  · intro i hi
    by_cases hih : i = h
    · subst hih
      rw [Function.update_self]
      exact hsplit.2
    · rw [Function.update_of_ne hih]
      exact hL.nodup_chain i hi
  · intro i hi
    by_cases hih : i = h
    · subst hih
      rw [Function.update_self, Function.update_comm hne.symm]
      exact linked_update (linked_remove (List.nodup_cons.mpr ⟨hcell, hnodup⟩) hlinked) hco
        hsplit.1
    · rw [Function.update_of_ne hih]
      have hplace : ∀ {y}, y ∈ chain h → y ∉ chain i := fun hy hy' => by
        have h₁ := ((hL.mem_chain h hh _).mp hy).2
        rw [((hL.mem_chain i hi _).mp hy').2] at h₁
        exact hih (Place.chain.inj h₁)
      refine hother (hL.linked_chain i hi) (fun he => hno o ho (he ▸ cell_mem_heads hi))
        (hplace hmem) ?_ ?_
      · intro he
        rcases hlast with hc | hm
        · exact hih (cell_injective (he.trans hc))
        · exact hno _ ((hL.mem_chain h hh _).mp hm).1 (he ▸ cell_mem_heads hi)
      · rcases hlast with hc | hm
        · rw [hc]
          exact hL.cell_not_mem hno (cell_mem_heads hh) hi
        · exact hplace hm
  · have hplace : ∀ {y}, y ∈ chain h → y ∉ free := fun hy hy' => by
      have h₁ := ((hL.mem_chain h hh _).mp hy).2
      rw [((hL.mem_free _).mp hy').2] at h₁
      cases h₁
    refine hother hL.linked_free (fun he => hno o ho (he ▸ free_mem_heads)) (hplace hmem) ?_ ?_
    · intro he
      rcases hlast with hc | hm
      · exact cell_ne_free h (he.trans hc).symm
      · exact hno _ ((hL.mem_chain h hh _).mp hm).1 (he ▸ free_mem_heads)
    · rcases hlast with hc | hm
      · rw [hc]
        exact hL.cell_not_mem_free hno (cell_mem_heads hh)
      · exact hplace hm

end Surgery

section Records

variable {st : Store} {maker : ℕ → Option P} {p : P} {o : ℕ} {data : List Byte}

theorem Records.setDat (hrec : Records st maker) (ho : o ∈ st.offs)
    (hdata : ∀ c ∈ data, c ≠ 0) (hlen : data.length + 1 = (st.body o).datlen) :
    Records (st.setDat (st.body o).datoff data) maker where
  ok := hrec.ok.setDat (hrec.dat_mem o ho) hdata (by
    have := hrec.dat_len o ho
    omega)
  dat_mem := hrec.dat_mem
  dat_len := by
    intro a ha
    change (st.body a).datlen = (Function.update st.dat _ data (st.body a).datoff).length + 1
    by_cases he : (st.body a).datoff = (st.body o).datoff
    · rw [he, Function.update_self, hrec.dat_inj a ha o ho he]
      omega
    · rw [Function.update_of_ne he]
      exact hrec.dat_len a ha
  dat_inj := hrec.dat_inj
  maker_iff := hrec.maker_iff

theorem Records.setPtr (h : Records st maker) (x : ℕ) {v : ℕ}
    (hv : v ≤ PTR_MAX) : Records (st.setPtr x v) maker :=
  { h with ok := h.ok.setPtr hv }

/-- A record keeps its data when it is rewritten under another key. -/
theorem Records.rekey (h : Records st maker) (ho : o ∈ st.offs) {v : ℕ}
    (hv : v ≤ PTR_MAX) {key : List Byte} (hkey : Body.Plain key)
    (hlen : key.length = (st.body o).key.length) :
    Records (st.setRec o v ((st.body o).rekey key)) maker := by
  have hdat : ∀ a, ((st.setRec o v ((st.body o).rekey key)).body a).datoff =
      (st.body a).datoff ∧ ((st.setRec o v ((st.body o).rekey key)).body a).datlen =
      (st.body a).datlen := by
    intro a
    change (Function.update st.body o _ a).datoff = _ ∧ (Function.update st.body o _ a).datlen = _
    by_cases hao : a = o
    · subst hao
      rw [Function.update_self]
      exact ⟨rfl, rfl⟩
    · rw [Function.update_of_ne hao]
      exact ⟨rfl, rfl⟩
  exact {
    ok := h.ok.setRec ho hv ((h.ok.body_ok o ho).rekey hkey hlen)
      (Body.length_text_rekey _ hlen)
    dat_mem := fun a ha => by
      rw [(hdat a).1]
      exact h.dat_mem a ha
    dat_len := fun a ha => by
      rw [(hdat a).1, (hdat a).2]
      exact h.dat_len a ha
    dat_inj := fun a ha b hb => by
      rw [(hdat a).1, (hdat b).1]
      exact h.dat_inj a ha b hb
    maker_iff := fun d hd => by
      simp only [hdat]
      exact h.maker_iff d hd }

theorem Records.addDat (h : Records st maker) (hdata : ∀ c ∈ data, c ≠ 0) :
    Records (st.addDat data) (Function.update maker st.datFile.length (some p)) where
  ok := h.ok.addDat hdata
  dat_mem a ha := List.mem_append_left _ (h.dat_mem a ha)
  dat_len a ha := by
    change _ = (Function.update st.dat _ data (st.body a).datoff).length + 1
    rw [Function.update_of_ne (h.ok.ne_new_doff (h.dat_mem a ha))]
    exact h.dat_len a ha
  dat_inj := h.dat_inj
  maker_iff d hd := by
    rcases List.mem_append.mp hd with hd | hd
    · rw [Function.update_of_ne (h.ok.ne_new_doff hd)]
      exact h.maker_iff d hd
    · obtain rfl := List.mem_singleton.mp hd
      rw [Function.update_self]
      constructor
      · exact fun he => nomatch he
      · rintro ⟨a, ha, he⟩
        exact absurd (he ▸ h.dat_mem a ha) h.ok.new_doff

theorem Records.addRec (h : Records st maker) {v : ℕ} {b : Body} (hv : v ≤ PTR_MAX)
    (hb : b.Ok) (hd : b.datoff ∈ st.doffs) (hmaker : maker b.datoff = some p)
    (hlen : b.datlen = (st.dat b.datoff).length + 1) :
    Records (st.addRec v b) (Function.update maker b.datoff none) := by
  have hold : ∀ {a}, a ∈ st.offs → (st.addRec v b).body a = st.body a := fun ha =>
    Function.update_of_ne (h.ok.ne_new_off ha) _ _
  have hnew : (st.addRec v b).body st.idxFile.length = b := Function.update_self _ _ _
  have hunused : ∀ a ∈ st.offs, (st.body a).datoff ≠ b.datoff := fun a ha he => by
    rw [(h.maker_iff _ hd).mpr ⟨a, ha, he⟩] at hmaker
    cases hmaker
  -- every record is an old one or the new one
  have hcases : ∀ {a}, a ∈ (st.addRec v b).offs →
      a ∈ st.offs ∨ a = st.idxFile.length := fun ha =>
    (List.mem_append.mp ha).imp_right List.mem_singleton.mp
  exact {
    ok := h.ok.addRec hv hb
    dat_mem := fun a ha => by
      rcases hcases ha with ha | rfl
      · rw [hold ha]
        exact h.dat_mem a ha
      · rw [hnew]
        exact hd
    dat_len := fun a ha => by
      rcases hcases ha with ha | rfl
      · rw [hold ha]
        exact h.dat_len a ha
      · rw [hnew]
        exact hlen
    dat_inj := fun a ha a' ha' he => by
      rcases hcases ha with ha | rfl
      · rcases hcases ha' with ha' | rfl
        · rw [hold ha, hold ha'] at he
          exact h.dat_inj a ha a' ha' he
        · rw [hold ha, hnew] at he
          exact absurd he (hunused a ha)
      · rcases hcases ha' with ha' | rfl
        · rw [hold ha', hnew] at he
          exact absurd he.symm (hunused a' ha')
        · rfl
    maker_iff := fun d hd' => by
      by_cases he : d = b.datoff
      · subst he
        rw [Function.update_self]
        exact ⟨fun _ => ⟨_, List.mem_append_right _ List.mem_cons_self, by rw [hnew]⟩,
          fun _ => rfl⟩
      · rw [Function.update_of_ne he, h.maker_iff d hd']
        constructor
        · rintro ⟨a, ha, hda⟩
          exact ⟨a, List.mem_append_left _ ha, by rw [hold ha]; exact hda⟩
        · rintro ⟨a, ha, hda⟩
          rcases hcases ha with ha | rfl
          · rw [hold ha] at hda
            exact ⟨a, ha, hda⟩
          · rw [hnew] at hda
            exact absurd hda.symm he }

/-- The layout of the files when no record is in the hands of a process. -/
theorem Records.layout (hrec : Records st maker) (hL : Lists st.offs st.body place chain free st.ptr)
    (hown : ∀ p, ∀ o ∈ st.offs, place o ≠ .proc p)
    (hmade : ∀ p, ∀ d ∈ st.doffs, maker d ≠ some p) : LayoutOf st.files st chain free := by
  have hok := hrec.ok
  -- a record with a key is on its chain, one without on the free list
  have hplace : ∀ o ∈ st.offs, (¬ Blank (st.body o).key ∧
      place o = .chain (hashOf (st.body o).key)) ∨ (Blank (st.body o).key ∧ place o = .free) := by
    intro o ho
    cases hp : place o with
    | chain h =>
      obtain ⟨hkey, hhash⟩ := hL.key_ok o ho h hp
      exact Or.inl ⟨hkey.nonblank, by rw [hhash]⟩
    | free => exact Or.inr ⟨hL.key_blank o ho hp, rfl⟩
    | proc p => exact absurd hp (hown p o ho)
  have hchain : ∀ o ∈ st.offs, ∀ h, place o = .chain h ↔
      ¬ Blank (st.body o).key ∧ hashOf (st.body o).key = h := by
    intro o ho h
    rcases hplace o ho with ⟨hb, hp⟩ | ⟨hb, hp⟩
    · rw [hp, Place.chain.injEq]
      exact ⟨fun he => ⟨hb, he⟩, fun he => he.2⟩
    · rw [hp]
      exact ⟨(by rintro ⟨⟩), fun he => absurd hb he.1⟩
  have hsize : ∀ o ∈ st.offs, (st.datBlock (st.body o).datoff).length = (st.body o).datlen :=
    fun o ho => by
      rw [Store.datBlock, List.length_append, hrec.dat_len o ho]
      rfl
  have hdat : st.files.dat = st.datFile := rfl
  have hlen : st.datFile.length = endOf (fun d => (st.datBlock d).length) 0 st.doffs :=
    Store.Ok.length_datFile
  exact {
    text := rfl
    ok := hok
    inside := fun o ho => by
      have := (placed_bounds hok.dplaced (hrec.dat_mem o ho)).2
      rwa [hsize o ho, ← hlen] at this
    newline := fun o ho => by
      have hlast := (hok.contains_dat (hrec.dat_mem o ho)).getElem?
        (i := (st.dat (st.body o).datoff).length) (by simp)
      rw [List.getElem?_append_right (Nat.le_refl _), Nat.sub_self] at hlast
      rw [hdat, hrec.dat_len o ho, Nat.add_sub_assoc (Nat.le_add_left 1 _), Nat.add_sub_cancel]
      exact hlast
    disjoint := fun o ho a ha hne => by
      have := placed_disjoint hok.dplaced (hrec.dat_mem o ho) (hrec.dat_mem a ha)
        fun he => hne (hrec.dat_inj o ho a ha he)
      rwa [hsize o ho, hsize a ha] at this
    cover := fun i hi => by
      rw [hdat, hlen] at hi
      obtain ⟨d, hd, hle, hlt⟩ := placed_cover hok.dplaced (Nat.zero_le i) hi
      have hnone : maker d = none := by
        cases hm : maker d with
        | none => rfl
        | some p => exact absurd hm (hmade p d hd)
      obtain ⟨o, ho, rfl⟩ := (hrec.maker_iff d hd).mp hnone
      rw [hsize o ho] at hlt
      exact ⟨o, ho, hle, hlt⟩
    mem_chain := fun h hh o => by
      rw [hL.mem_chain h hh o]
      exact and_congr_right fun ho => hchain o ho h
    mem_free := fun o => by
      rw [hL.mem_free o]
      refine and_congr_right fun ho => ?_
      rcases hplace o ho with ⟨hb, hp⟩ | ⟨hb, hp⟩
      · rw [hp]
        exact ⟨(by rintro ⟨⟩), fun he => absurd he hb⟩
      · exact ⟨fun _ => hb, fun _ => hp⟩
    nodup_chain := hL.nodup_chain
    nodup_free := hL.nodup_free
    linked_chain := hL.linked_chain
    linked_free := hL.linked_free
    key_injective := fun o ho a ha hb hkey => by
      have hpo := (hchain o ho _).mpr ⟨hb, rfl⟩
      have hpa := (hchain a ha _).mpr ⟨hkey ▸ hb, congrArg hashOf hkey.symm⟩
      exact hL.key_inj o ho a ha _ hpo hpa hkey }

end Records

end Apue.Db
