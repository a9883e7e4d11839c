import Apue.DbUpdates

/-!
A call of the library that is over leaves the database at rest. The records of
the new store are on the lists of the old one, but for the record that the call
was about: a deletion moves it from its chain to the front of the free list, an
insertion puts it at the front of its chain, taken from the free list or new.
-/
namespace Apue.Db

open Programs Decimal ByteFiles Pointers

variable {st : Store} {key data : List Byte} {chain : ℕ → List ℕ} {free pre rest : List ℕ} {o : ℕ}

/-- Where a record or a cell belongs in a database at rest. -/
def Store.placeOf (st : Store) (c : ℕ) : Place Unit :=
  if c ∈ st.offs then
    if Blank (st.body c).key then .free else .chain (hashOf (st.body c).key)
  else if c = FREE_OFF then .free
  else if c ∈ heads then .chain ((c - HASH_OFF) / PTR_SZ)
  else .proc ()

theorem Store.placeOf_chain {h : ℕ} (ho : o ∈ st.offs) :
    st.placeOf o = .chain h ↔ ¬ Blank (st.body o).key ∧ hashOf (st.body o).key = h := by
  rw [placeOf, if_pos ho]
  by_cases hb : Blank (st.body o).key
  · rw [if_pos hb]
    exact iff_of_false nofun fun h => h.1 hb
  · rw [if_neg hb, Place.chain.injEq]
    exact (and_iff_right hb).symm

theorem Store.placeOf_free (ho : o ∈ st.offs) : st.placeOf o = .free ↔ Blank (st.body o).key := by
  rw [placeOf, if_pos ho]
  by_cases hb : Blank (st.body o).key
  · rw [if_pos hb]
    exact iff_of_true rfl hb
  · rw [if_neg hb]
    exact iff_of_false nofun hb

theorem cell_div (h : ℕ) : (cell h - HASH_OFF) / PTR_SZ = h := by
  rw [cell, Nat.add_sub_cancel, Nat.mul_div_cancel h (by decide)]

/-- A record that is not deleted has a proper key. -/
theorem Store.Ok.keyOk (hok : st.Ok) (ho : o ∈ st.offs) (hb : ¬ Blank (st.body o).key) :
    KeyOk (st.body o).key where
  nonempty he := hb (he ▸ fun _ hc => absurd hc List.not_mem_nil)
  plain := (hok.body_ok o ho).plain
  nonblank := hb

theorem Resting.lists (h : Resting st.files st chain free) :
    Lists st.offs st.body st.placeOf chain free st.ptr where
  place_cell i hi := by
    rw [Store.placeOf, if_neg fun hc => h.ok.not_head hc (cell_mem_heads hi),
      if_neg (cell_ne_free i), if_pos (cell_mem_heads hi), cell_div]
  place_free := by
    rw [Store.placeOf, if_neg fun hc => h.ok.not_head hc free_mem_heads, if_pos rfl]
  isCell c i hc := by
    by_cases ho : c ∈ st.offs
    · exact Or.inr ho
    · by_cases hh : c ∈ heads
      · exact Or.inl hh
      · have hfree : c ≠ FREE_OFF := (ne_of_mem_of_not_mem free_mem_heads hh).symm
        rw [Store.placeOf, if_neg ho, if_neg hfree, if_neg hh] at hc
        cases hc
  mem_chain i hi a := by
    rw [h.mem_chain i hi a]
    exact and_congr_right fun ha => (Store.placeOf_chain ha).symm
  mem_free a := by
    rw [h.mem_free a]
    exact and_congr_right fun ha => (Store.placeOf_free ha).symm
  nodup_chain := h.nodup_chain
  nodup_free := h.nodup_free
  linked_chain := h.linked_chain
  linked_free := h.linked_free
  key_ok a ha i hp := by
    obtain ⟨hb, hhash⟩ := (Store.placeOf_chain ha).mp hp
    exact ⟨h.ok.keyOk ha hb, hhash⟩
  key_inj a ha b hb i hp _ hkey := h.key_injective a ha b hb ((Store.placeOf_chain ha).mp hp).1 hkey
  key_blank a ha hp := (Store.placeOf_free ha).mp hp

/-- Every data record belongs to an index record. -/
theorem Resting.records (h : Resting st.files st chain free) :
    Records st fun _ => (none : Option Unit) where
  ok := h.ok
  dat_mem a ha := (h.data a ha).mem
  dat_len a ha := (h.data a ha).len
  dat_inj := h.dat_inj
  maker_iff d hd := by
    refine iff_of_true rfl ?_
    obtain ⟨a, ha, hle, hlt⟩ := h.cover d (h.ok.doff_lt hd)
    refine ⟨a, ha, ?_⟩
    by_contra hne
    have hsize : (st.datBlock (st.body a).datoff).length = (st.body a).datlen := by
      rw [Store.datBlock, List.length_append, (h.data a ha).len]
      rfl
    have hpos : 0 < (st.datBlock d).length := by
      rw [Store.datBlock, List.length_append]
      exact Nat.succ_pos _
    have := placed_disjoint h.ok.dplaced (h.data a ha).mem hd hne
    omega

theorem Resting.of_lists {P : Type} {maker : ℕ → Option P} {place : ℕ → Place P}
    (hrec : Records st maker) (hL : Lists st.offs st.body place chain free st.ptr)
    (hown : ∀ p, ∀ o ∈ st.offs, place o ≠ .proc p)
    (hmade : ∀ p, ∀ d ∈ st.doffs, maker d ≠ some p) : Resting st.files st chain free where
  toLayoutOf := hrec.layout hL hown hmade
  data a ha := ⟨hrec.dat_mem a ha, hrec.dat_len a ha⟩
  dat_inj := hrec.dat_inj

theorem Store.placeOf_ne_proc (ho : o ∈ st.offs) (p : Unit) : st.placeOf o ≠ .proc p := by
  rw [placeOf, if_pos ho]
  split <;> nofun

/-- A record that has left the hands of the process leaves none behind. -/
theorem Store.placeOf_update_ne_proc {x : Place Unit} (hx : ∀ p, x ≠ .proc p) (p : Unit) {a : ℕ}
    (ha : a ≠ o → a ∈ st.offs) : Function.update st.placeOf o x a ≠ .proc p := by
  by_cases hao : a = o
  · rw [hao, Function.update_self]
    exact hx p
  · rw [Function.update_of_ne hao]
    exact placeOf_ne_proc (ha hao) p

section Deletion

variable (h : Resting st.files st chain free) (hchain : chain (hashOf key) = pre ++ o :: rest)
include h hchain

/-- A deletion that is over. -/
theorem Resting.unlinked : Resting (st.unlinked o (lastCell (cell (hashOf key)) pre)).files
    (st.unlinked o (lastCell (cell (hashOf key)) pre))
    (Function.update chain (hashOf key) (pre ++ rest)) (o :: free) := by
  have hmem : o ∈ chain (hashOf key) := hchain ▸ List.mem_append_right _ List.mem_cons_self
  have ho := (h.mem_chain_hash.mp hmem).1
  have hhead : ∀ a ∈ st.offs, a ∉ heads := fun a ha => h.ok.not_head ha
  have hdatlen : (List.replicate ((st.body o).datlen - 1) SPACE).length + 1 = (st.body o).datlen := by
    rw [List.length_replicate]
    exact Nat.sub_add_cancel (h.ok.body_ok o ho).datlen_pos
  have hrec : Records (st.unlinked o (lastCell (cell (hashOf key)) pre))
      fun _ => (none : Option Unit) := by
    have hwiped : Records (st.dataWiped o) fun _ => (none : Option Unit) :=
      h.records.setDat ho (fun c hc => by
        rw [List.eq_of_mem_replicate hc]
        decide) hdatlen
    have hrekeyed : Records (st.recWiped o) fun _ => (none : Option Unit) :=
      hwiped.rekey ho (h.ok.ptr_le _) (plain_blanks _) List.length_replicate
    exact (hrekeyed.setPtr FREE_OFF (h.off_le ho)).setPtr _ (h.ok.ptr_le o)
  -- the cell before the record is neither the record nor the start of the free list
  have hlast : lastCell (cell (hashOf key)) pre ≠ o ∧
      lastCell (cell (hashOf key)) pre ≠ FREE_OFF := by
    have hnodup := h.nodup_chain _ (hashOf_lt key)
    rw [hchain] at hnodup
    rcases List.mem_cons.mp (lastCell_mem (cell (hashOf key)) pre) with he | hin
    · rw [he]
      exact ⟨h.ok.ne_cell ho (hashOf_lt key), cell_ne_free _⟩
    · refine ⟨fun he => (List.nodup_cons.mp (List.nodup_middle.mp hnodup)).1 ?_, fun he => ?_⟩
      · exact List.mem_append_left _ (he ▸ hin)
      · have hoff := (h.mem_chain_hash.mp (hchain ▸ List.mem_append_left _ hin)).1
        exact hhead _ hoff (he ▸ free_mem_heads)
  have hfree : FREE_OFF ≠ o := h.ok.ne_free ho
  have hout := h.lists.unlink (p := ()) (f := st.ptr FREE_OFF)
    (b := (st.body o).rekey (List.replicate (st.body o).key.length SPACE)) hhead (hashOf_lt key) hchain
  have hback := hout.pushFree hhead (p := ()) ho (Function.update_self ..) (by
    rw [Function.update_self]
    exact fun c hc => List.eq_of_mem_replicate hc) (by
    rw [Function.update_of_ne hlast.1.symm, Function.update_self,
      Function.update_of_ne hlast.2.symm, Function.update_of_ne hfree])
  rw [Function.update_idem, Function.update_comm hlast.2] at hback
  refine Resting.of_lists hrec hback (fun p a ha => ?_) fun _ _ _ => nofun
  exact st.placeOf_update_ne_proc (x := .free) (fun _ => nofun) p fun _ => ha

end Deletion

section Insertion

variable (h : Resting st.files st chain free) (hkey : KeyOk key) (hdata : ∀ c ∈ data, c ≠ 0)
variable (hmiss : ∀ a ∈ chain (hashOf key), (st.body a).key ≠ key)
include h hkey hdata hmiss

/-- An insertion that has taken the deleted record `o`. -/
theorem Resting.reused (hfree : free = pre ++ o :: rest) (hfit : (st.body o).Fits key data) :
    Resting (st.reused pre o key data).files (st.reused pre o key data)
      (Function.update chain (hashOf key) (o :: chain (hashOf key))) (pre ++ rest) := by
  have hmem : o ∈ free := hfree ▸ List.mem_append_right _ List.mem_cons_self
  obtain ⟨ho, hb⟩ := (h.mem_free o).mp hmem
  have hhead : ∀ a ∈ st.offs, a ∉ heads := fun a ha => h.ok.not_head ha
  have hcell := hashOf_lt key
  have hrec : Records (st.reused pre o key data) fun _ => (none : Option Unit) := by
    have htaken : Records (st.taken pre o) fun _ => (none : Option Unit) :=
      h.records.setPtr _ (h.ok.ptr_le o)
    have hfilled : Records (st.refilled pre o data) fun _ => (none : Option Unit) :=
      htaken.setDat ho hdata hfit.2.symm
    have hrekeyed : Records (st.rekeyed pre o key data) fun _ => (none : Option Unit) :=
      hfilled.rekey ho (h.ok.ptr_le _) hkey.plain hfit.1.symm
    exact hrekeyed.setPtr _ (h.off_le ho)
  have hne : cell (hashOf key) ≠ o ∧ cell (hashOf key) ≠ lastCell FREE_OFF pre := by
    refine ⟨h.ok.ne_cell ho hcell, fun he => ?_⟩
    rcases List.mem_cons.mp (lastCell_mem FREE_OFF pre) with hz | hin
    · exact cell_ne_free _ (he.trans hz)
    · have hoff := ((h.mem_free _).mp (hfree ▸ List.mem_append_left _ hin)).1
      exact h.ok.ne_cell hoff hcell he
  have hpop := h.lists.popFree (p := ()) hhead hfree
  have hrewritten := hpop.rewrite (p := ()) (v := st.ptr (cell (hashOf key)))
    (b := (st.body o).rekey key) (hhead o ho) ho (fun _ _ => Iff.rfl) fun _ => Function.update_self ..
  have hbody : Function.update st.body o ((st.body o).rekey key) o = (st.body o).rekey key :=
    Function.update_self ..
  have hlinked := hrewritten.link (p := ()) hhead hcell ho (Function.update_self ..)
    (by rw [hbody]; exact hkey) (by rw [hbody]; rfl) (fun a ha => ?_) (by
      rw [Function.update_self, Function.update_of_ne hne.1, Function.update_of_ne hne.2])
  · rw [Function.update_idem, Function.update_idem] at hlinked
    refine Resting.of_lists hrec hlinked (fun p a ha => ?_) fun _ _ _ => nofun
    exact st.placeOf_update_ne_proc (x := .chain _) (fun _ => nofun) p fun _ => ha
  · have hao : a ≠ o := by
      rintro rfl
      exact (h.mem_chain_hash.mp ha).2.1 hb
    rw [hbody, Function.update_of_ne hao]
    exact hmiss a ha

/-- An insertion that has added a record. -/
theorem Resting.appended (hdlen : data.length + 1 ≤ DATLEN_MAX)
    (hlen : (st.newBody key data).text.length ≤ IDXLEN_MAX) (hnear : st.idxFile.length ≤ PTR_MAX) :
    Resting (((st.addDat data).addRec (st.ptr (cell (hashOf key))) (st.newBody key data)).setPtr
        (cell (hashOf key)) st.idxFile.length).files
      (((st.addDat data).addRec (st.ptr (cell (hashOf key))) (st.newBody key data)).setPtr
        (cell (hashOf key)) st.idxFile.length)
      (Function.update chain (hashOf key) (st.idxFile.length :: chain (hashOf key))) free := by
  have hcell := hashOf_lt key
  have hok := h.ok.addDat hdata
  have hnew : st.idxFile.length ∉ st.offs := h.ok.new_off
  have hhead : st.idxFile.length ∉ heads := fun hmem => by
    have hlt := head_lt hmem
    have hge := h.ok.new_off_ge
    omega
  have hheads : ∀ a ∈ st.offs ++ [st.idxFile.length], a ∉ heads := fun a ha =>
    (List.mem_append.mp ha).elim h.ok.not_head fun hl => List.mem_singleton.mp hl ▸ hhead
  have hself : st.idxFile.length ∈ st.offs ++ [st.idxFile.length] :=
    List.mem_append_right _ List.mem_cons_self
  have hdself : (st.addDat data).dat st.datFile.length = data := Function.update_self ..
  have hrec := ((h.records.addDat (p := ()) hdata).addRec (p := ()) (b := st.newBody key data)
    (h.ok.ptr_le (cell (hashOf key))) (Store.newBody_ok hkey hdlen hlen)
    (List.mem_append_right _ List.mem_cons_self) (Function.update_self ..)
    (congrArg (List.length · + 1) hdself.symm)).setPtr (cell (hashOf key)) hnear
  have hrewritten := h.lists.rewrite (p := ()) (v := st.ptr (cell (hashOf key)))
    (b := st.newBody key data) hhead hself
    (fun a ha => ⟨fun hm => (List.mem_append.mp hm).resolve_right fun hl =>
      ha (List.mem_singleton.mp hl), List.mem_append_left _⟩) fun hm => absurd hm hnew
  have hbody : Function.update st.body st.idxFile.length (st.newBody key data) st.idxFile.length =
      st.newBody key data := Function.update_self ..
  have hne : cell (hashOf key) ≠ st.idxFile.length := fun he => hhead (he ▸ cell_mem_heads hcell)
  have hlinked := hrewritten.link (p := ()) hheads hcell hself (Function.update_self ..)
    (by rw [hbody]; exact hkey) (by rw [hbody]; rfl) (fun a ha => ?_) (by
      rw [Function.update_self, Function.update_of_ne hne])
  · rw [Function.update_idem] at hlinked
    refine Resting.of_lists hrec hlinked (fun p a ha => ?_) fun _ d hd => ?_
    · exact st.placeOf_update_ne_proc (x := .chain _) (fun _ => nofun) p fun hao =>
        (List.mem_append.mp ha).resolve_right fun hl => hao (List.mem_singleton.mp hl)
    · have hnone : Function.update (Function.update (fun _ => (none : Option Unit))
          st.datFile.length (some ())) st.datFile.length none d = none := by
        rw [Function.update_idem, Function.update_apply, ite_self]
      exact fun he => Option.some_ne_none _ (he.symm.trans hnone)
  · have hao : a ≠ st.idxFile.length := ne_of_mem_of_not_mem (h.mem_chain_hash.mp ha).1 hnew
    rw [hbody, Function.update_of_ne hao]
    exact hmiss a ha

end Insertion

/-- A replacement by data of the same length. -/
theorem Resting.overwritten (h : Resting st.files st chain free) (hdata : ∀ c ∈ data, c ≠ 0)
    (ho : o ∈ st.offs) (hlen : data.length + 1 = (st.body o).datlen) :
    Resting (st.setDat (st.body o).datoff data).files (st.setDat (st.body o).datoff data) chain
      free := by
  have hrec : Records (st.setDat (st.body o).datoff data) fun _ => (none : Option Unit) :=
    h.records.setDat ho hdata hlen
  exact Resting.of_lists hrec h.lists (fun p a ha => Store.placeOf_ne_proc ha p) fun _ _ _ => nofun

end Apue.Db
