import Mathlib
import Apue.SortedRuns

/-!
The merge of the parts that the threads have sorted. Each round looks at the number at the
index of each part and takes the least of them. The functions follow barrier.c.
-/
namespace Apue.BarrierMerge

open SortedRuns

def NTHR : ℕ := 8

def NUMNUM : ℕ := 8000000

def TNUM : ℕ := NUMNUM / NTHR

def LONG_MAX : ℤ := 2 ^ 63 - 1

/-- The variables of a round. The index of the least number is none before it is set. Each
access of nums is noted with the part that it is meant for. -/
structure Round where
  num : ℤ
  minidx : Option ℕ
  used : List (ℕ × ℕ)

/-- The variables between two rounds, with the numbers that are in snums. -/
structure State where
  idx : ℕ → ℕ
  minidx : Option ℕ
  snums : List ℤ
  used : List (ℕ × ℕ)

/-- The loop over the parts from `i` on, of which `left` are left. -/
def selectLoop (nums : List ℤ) (idx : ℕ → ℕ) : ℕ → ℕ → Round → Option Round
  | 0, _, s => some s
  | left + 1, i, s =>
    if idx i < (i + 1) * TNUM then do
      let v ← nums[idx i]?
      let s := { s with used := s.used ++ [(i, idx i)] }
      if v < s.num then selectLoop nums idx left (i + 1) { s with num := v, minidx := some i }
      else selectLoop nums idx left (i + 1) s
    else selectLoop nums idx left (i + 1) s

/-- A round. It is none if an index is outside nums, or if minidx was never set. -/
def mergeRound (nums : List ℤ) (st : State) : Option State := do
  let s ← selectLoop nums st.idx NTHR 0 ⟨LONG_MAX, st.minidx, st.used⟩
  let minidx ← s.minidx
  let v ← nums[st.idx minidx]?
  some {
    idx := Function.update st.idx minidx (st.idx minidx + 1)
    minidx := s.minidx
    snums := st.snums ++ [v]
    used := s.used ++ [(minidx, st.idx minidx)] }

def mergeLoop (nums : List ℤ) : ℕ → State → Option State
  | 0, st => some st
  | left + 1, st => do
    let st ← mergeRound nums st
    mergeLoop nums left st

def merge (nums : List ℤ) : Option State :=
  mergeLoop nums NUMNUM ⟨fun i => i * TNUM, none, [], []⟩

/-- An index lies in the part that it is meant for. -/
def InPart (p : ℕ × ℕ) : Prop := p.1 < NTHR ∧ p.1 * TNUM ≤ p.2 ∧ p.2 < (p.1 + 1) * TNUM

/-- What is left of a part, from its index on. -/
def part (nums : List ℤ) (idx : ℕ → ℕ) (i : Fin NTHR) : List ℤ :=
  (nums.drop (idx i)).take ((i + 1) * TNUM - idx i)

/-- Each index is in its part or at its end. -/
def Bounded (idx : ℕ → ℕ) : Prop :=
  ∀ i < NTHR, i * TNUM ≤ idx i ∧ idx i ≤ (i + 1) * TNUM

theorem NUMNUM_eq : NUMNUM = NTHR * TNUM := by decide

theorem part_end_le {i : ℕ} (hi : i < NTHR) : (i + 1) * TNUM ≤ NUMNUM := by
  rw [NUMNUM_eq]
  exact Nat.mul_le_mul_right TNUM hi

/-- A part that is not at its end begins with the number at its index. -/
theorem part_eq_cons {nums : List ℤ} {idx : ℕ → ℕ} {i : Fin NTHR} {v : ℤ}
    (hidx : idx i < (i + 1) * TNUM) (hv : nums[idx i]? = some v) :
    part nums idx i = v :: (nums.drop (idx i + 1)).take ((i + 1) * TNUM - (idx i + 1)) := by
  obtain ⟨hlt, hget⟩ := List.getElem?_eq_some_iff.mp hv
  unfold part
  rw [List.drop_eq_getElem_cons hlt, hget,
    show (i + 1) * TNUM - idx i = (i + 1) * TNUM - (idx i + 1) + 1 by omega, List.take_succ_cons]

theorem part_eq_nil {nums : List ℤ} {idx : ℕ → ℕ} {i : Fin NTHR}
    (hidx : (i + 1) * TNUM ≤ idx i) : part nums idx i = [] := by
  unfold part
  rw [Nat.sub_eq_zero_of_le hidx, List.take_zero]

/-- The number at an index that is not at the end of its part. -/
theorem exists_num {nums : List ℤ} (hlen : nums.length = NUMNUM) {k i : ℕ} (hi : i < NTHR)
    (hk : k < (i + 1) * TNUM) : ∃ v, nums[k]? = some v := by
  have hend := part_end_le hi
  have hlt : k < nums.length := by omega
  exact ⟨nums[k], List.getElem?_eq_getElem hlt⟩

/-- What the loop over the parts leaves in the variables, if it began at part `i` with `s`. -/
structure Selected (nums : List ℤ) (idx : ℕ → ℕ) (i : ℕ) (s s' : Round) : Prop where
  used : ∀ p ∈ s'.used, p ∈ s.used ∨ InPart p
  le : s'.num ≤ s.num
  least : ∀ j, i ≤ j → j < NTHR → idx j < (j + 1) * TNUM → ∀ v, nums[idx j]? = some v → s'.num ≤ v
  index : (s'.num = s.num ∧ s'.minidx = s.minidx) ∨
    ∃ j < NTHR, s'.minidx = some j ∧ idx j < (j + 1) * TNUM ∧ nums[idx j]? = some s'.num

theorem selectLoop_selected {nums : List ℤ} (hlen : nums.length = NUMNUM) {idx : ℕ → ℕ}
    (hidx : Bounded idx) {left i : ℕ} (hi : i + left = NTHR) (s : Round) :
    ∃ s', selectLoop nums idx left i s = some s' ∧ Selected nums idx i s s' := by
  induction left generalizing i s with
  | zero =>
    refine ⟨s, rfl, fun p hp => Or.inl hp, le_refl _, fun j hij hj => ?_, Or.inl ⟨rfl, rfl⟩⟩
    omega
  | succ left ih =>
    have hi' : i + 1 + left = NTHR := by omega
    have hlt : i < NTHR := by omega
    unfold selectLoop
    by_cases hroom : idx i < (i + 1) * TNUM
    · obtain ⟨v, hv⟩ := exists_num hlen hlt hroom
      have hpart : InPart (i, idx i) := ⟨hlt, (hidx i hlt).1, hroom⟩
      have hsplit : ∀ (s' : Round), (∀ p ∈ s'.used, p ∈ s.used ++ [(i, idx i)] ∨ InPart p) →
          ∀ p ∈ s'.used, p ∈ s.used ∨ InPart p := by
        intro s' hused p hp
        rcases hused p hp with hp | hp
        · rcases List.mem_append.mp hp with hp | hp
          · exact Or.inl hp
          · exact Or.inr (List.mem_singleton.mp hp ▸ hpart)
        · exact Or.inr hp
      simp only [if_pos hroom, hv, Option.bind_eq_bind, Option.bind_some]
      by_cases hless : v < s.num
      · obtain ⟨s', hloop, hused, hle, hleast, hindex⟩ :=
          ih hi' ⟨v, some i, s.used ++ [(i, idx i)]⟩
        refine ⟨s', by rw [if_pos hless]; exact hloop, hsplit s' hused, hle.trans hless.le, ?_, ?_⟩
        · intro j hij hj hroomj w hw
          rcases Nat.eq_or_lt_of_le hij with rfl | hij
          · obtain rfl := Option.some.inj (hv.symm.trans hw)
            exact hle
          · exact hleast j hij hj hroomj w hw
        · right
          rcases hindex with ⟨hnum, hmin⟩ | hindex
          · exact ⟨i, hlt, hmin, hroom, hnum ▸ hv⟩
          · exact hindex
      · obtain ⟨s', hloop, hused, hle, hleast, hindex⟩ :=
          ih hi' ⟨s.num, s.minidx, s.used ++ [(i, idx i)]⟩
        refine ⟨s', by rw [if_neg hless]; exact hloop, hsplit s' hused, hle, ?_, hindex⟩
        intro j hij hj hroomj w hw
        rcases Nat.eq_or_lt_of_le hij with rfl | hij
        · obtain rfl := Option.some.inj (hv.symm.trans hw)
          exact hle.trans (not_lt.mp hless)
        · exact hleast j hij hj hroomj w hw
    · obtain ⟨s', hloop, hused, hle, hleast, hindex⟩ := ih hi' s
      refine ⟨s', by rw [if_neg hroom]; exact hloop, hused, hle, ?_, hindex⟩
      intro j hij hj hroomj w hw
      rcases Nat.eq_or_lt_of_le hij with rfl | hij
      · exact absurd hroomj hroom
      · exact hleast j hij hj hroomj w hw

/-- The state between two rounds. -/
structure Ok (nums : List ℤ) (st : State) : Prop where
  bounded : Bounded st.idx
  merging : Merging (nums : Multiset ℤ) (part nums st.idx) st.snums
  used : ∀ p ∈ st.used, InPart p

theorem length_mergeRound {nums : List ℤ} {st st' : State} (h : mergeRound nums st = some st') :
    st'.snums.length = st.snums.length + 1 := by
  obtain ⟨s, -, h⟩ := Option.bind_eq_some_iff.mp h
  obtain ⟨j, -, h⟩ := Option.bind_eq_some_iff.mp h
  obtain ⟨v, -, h⟩ := Option.bind_eq_some_iff.mp h
  obtain rfl := Option.some.inj h
  exact List.length_append

/-- A least number among those at the indexes is a least head of the parts. -/
theorem head_of_least {nums : List ℤ} (hlen : nums.length = NUMNUM) {idx : ℕ → ℕ} {num : ℤ}
    (hleast : ∀ j, 0 ≤ j → j < NTHR → idx j < (j + 1) * TNUM → ∀ v, nums[idx j]? = some v →
      num ≤ v) :
    ∀ i b, (part nums idx i).head? = some b → num ≤ b := by
  intro i b hb
  by_cases hroom : idx i < (i + 1) * TNUM
  · obtain ⟨v, hv⟩ := exists_num hlen i.isLt hroom
    rw [part_eq_cons hroom hv, List.head?_cons] at hb
    obtain rfl := Option.some.inj hb
    exact hleast i (Nat.zero_le _) i.isLt hroom v hv
  · rw [part_eq_nil (not_lt.mp hroom)] at hb
    exact absurd hb nofun

theorem part_update (nums : List ℤ) (idx : ℕ → ℕ) (j : Fin NTHR) :
    part nums (Function.update idx j (idx j + 1)) =
      Function.update (part nums idx) j
        ((nums.drop (idx j + 1)).take ((j + 1) * TNUM - (idx j + 1))) := by
  funext i
  unfold part
  by_cases hij : i = j
  · subst hij
    rw [Function.update_self, Function.update_self]
  · have hne : (i : ℕ) ≠ j := fun heq => hij (Fin.ext heq)
    rw [Function.update_of_ne hne, Function.update_of_ne hij]

/-- A round takes the least of the numbers at the indexes. -/
theorem Ok.round {nums : List ℤ} {st : State} (h : Ok nums st) (hlen : nums.length = NUMNUM)
    (hrange : ∀ v ∈ nums, v < LONG_MAX) (hleft : st.snums.length < NUMNUM) :
    ∃ st', mergeRound nums st = some st' ∧ Ok nums st' ∧
      st'.snums.length = st.snums.length + 1 := by
  obtain ⟨s, hloop, hused, -, hleast, hindex⟩ :=
    selectLoop_selected hlen h.bounded (Nat.zero_add NTHR) ⟨LONG_MAX, st.minidx, st.used⟩
  -- a part that is not at its end has a number below LONG_MAX
  obtain ⟨i, hi⟩ := h.merging.exists_ne_nil (by rw [Multiset.coe_card, hlen]; exact hleft)
  have hroom : st.idx i < (i + 1) * TNUM := by
    by_contra hend
    exact hi (part_eq_nil (not_lt.mp hend))
  obtain ⟨v, hv⟩ := exists_num hlen i.isLt hroom
  have hbelow : s.num < LONG_MAX :=
    (hleast i (Nat.zero_le _) i.isLt hroom v hv).trans_lt (hrange v (List.mem_of_getElem? hv))
  obtain ⟨j, hj, hmin, hroomj, hnum⟩ : ∃ j < NTHR, s.minidx = some j ∧
      st.idx j < (j + 1) * TNUM ∧ nums[st.idx j]? = some s.num := by
    rcases hindex with ⟨hsame, -⟩ | hindex
    · exact absurd hsame hbelow.ne
    · exact hindex
  have hround : mergeRound nums st = some ⟨Function.update st.idx j (st.idx j + 1), some j,
      st.snums ++ [s.num], s.used ++ [(j, st.idx j)]⟩ := by
    simp only [mergeRound, hloop, hmin, hnum, Option.bind_eq_bind, Option.bind_some]
  refine ⟨_, hround, ⟨fun k hk => ?_, ?_, fun p hp => ?_⟩, List.length_append⟩
  · by_cases hkj : k = j
    · subst hkj
      have hbound := h.bounded k hk
      simp only [Function.update_self]
      omega
    · simp only [Function.update_of_ne hkj]
      exact h.bounded k hk
  · have hcons := part_eq_cons (i := ⟨j, hj⟩) hroomj hnum
    have htake := h.merging.take hcons (head_of_least hlen hleast)
    rwa [← part_update nums st.idx ⟨j, hj⟩] at htake
  · rcases List.mem_append.mp hp with hp | hp
    · rcases hused p hp with hp | hp
      · exact h.used p hp
      · exact hp
    · obtain rfl := List.mem_singleton.mp hp
      exact ⟨hj, (h.bounded j hj).1, hroomj⟩

theorem Ok.loop {nums : List ℤ} {st : State} (h : Ok nums st) (hlen : nums.length = NUMNUM)
    (hrange : ∀ v ∈ nums, v < LONG_MAX) {left : ℕ} (hleft : st.snums.length + left = NUMNUM) :
    ∃ st', mergeLoop nums left st = some st' ∧ Ok nums st' ∧ st'.snums.length = NUMNUM := by
  induction left generalizing st with
  | zero => exact ⟨st, rfl, h, hleft⟩
  | succ left ih =>
    obtain ⟨st₁, hround, h₁, hlen₁⟩ := h.round hlen hrange (by omega)
    obtain ⟨st₂, hloop, h₂⟩ := ih h₁ (by omega)
    refine ⟨st₂, ?_, h₂⟩
    simp only [mergeLoop, hround, Option.bind_eq_bind, Option.bind_some]
    exact hloop

theorem ok_start {nums : List ℤ} (hlen : nums.length = NUMNUM)
    (hparts : ∀ i < NTHR, ((nums.drop (i * TNUM)).take TNUM).Pairwise (· ≤ ·)) :
    Ok nums ⟨fun i => i * TNUM, none, [], []⟩ := by
  have hpart : part nums (fun i => i * TNUM) =
      fun i : Fin NTHR => (nums.drop (i * TNUM)).take TNUM := by
    funext i
    unfold part
    rw [show ((i : ℕ) + 1) * TNUM - i * TNUM = TNUM by rw [Nat.add_mul]; omega]
  refine ⟨fun i _ => ?_, ?_, fun p hp => absurd hp List.not_mem_nil⟩
  · exact ⟨le_refl _, Nat.mul_le_mul_right TNUM (Nat.le_succ i)⟩
  · have hsorted : ∀ i, (part nums (fun i => i * TNUM) i).Pairwise (· ≤ ·) := by
      rw [hpart]
      exact fun i => hparts i i.isLt
    have hstart := Merging.start hsorted
    rwa [hpart, sum_runs NTHR TNUM nums (hlen.trans NUMNUM_eq), ← hpart] at hstart

/-- The merge of sorted parts sorts the whole, and each access of nums lies in the part that it
is meant for. -/
theorem merge_sorts {nums : List ℤ} (hlen : nums.length = NUMNUM)
    (hparts : ∀ i < NTHR, ((nums.drop (i * TNUM)).take TNUM).Pairwise (· ≤ ·))
    (hrange : ∀ v ∈ nums, 0 ≤ v ∧ v ≤ 2 ^ 31 - 1) :
    ∃ st, merge nums = some st ∧ st.snums.Pairwise (· ≤ ·) ∧ st.snums.Perm nums ∧
      ∀ p ∈ st.used, InPart p := by
  have hmax : ∀ v ∈ nums, v < LONG_MAX := by
    intro v hv
    have hle := (hrange v hv).2
    unfold LONG_MAX
    omega
  obtain ⟨st, hmerge, hok, hlength⟩ :=
    (ok_start hlen hparts).loop hlen hmax (Nat.zero_add NUMNUM)
  exact ⟨st, hmerge, hok.merging.out_sorted, hok.merging.perm (hlength.trans hlen.symm), hok.used⟩

/-- The numbers from 0 on, dealt out to the parts one after the other. -/
def dealt : List ℤ := (List.range NUMNUM).map fun k => ((k % TNUM * NTHR + k / TNUM : ℕ) : ℤ)

theorem length_dealt : dealt.length = NUMNUM := by simp [dealt]

theorem dealt_range : ∀ v ∈ dealt, 0 ≤ v ∧ v ≤ 2 ^ 31 - 1 := by
  intro v hv
  obtain ⟨k, hk, rfl⟩ := List.mem_map.mp hv
  have hlt : k < 8000000 := List.mem_range.mp hk
  have hmod : k % 1000000 < 1000000 := Nat.mod_lt k (by decide)
  change (0 : ℤ) ≤ (k % 1000000 * 8 + k / 1000000 : ℕ) ∧
    ((k % 1000000 * 8 + k / 1000000 : ℕ) : ℤ) ≤ 2 ^ 31 - 1
  omega

theorem dealt_sorted : ∀ i < NTHR, ((dealt.drop (i * TNUM)).take TNUM).Pairwise (· ≤ ·) := by
  intro i hi
  have hpos : 0 < TNUM := by decide
  have hat : ∀ n (h : n < ((dealt.drop (i * TNUM)).take TNUM).length),
      ((dealt.drop (i * TNUM)).take TNUM)[n] = ((n * NTHR + i : ℕ) : ℤ) := by
    intro n h
    have hn : n < TNUM := Nat.lt_of_lt_of_le h (List.length_take_le ..)
    have hmod : (i * TNUM + n) % TNUM = n := by
      rw [Nat.mul_add_mod_self_right, Nat.mod_eq_of_lt hn]
    have hdiv : (i * TNUM + n) / TNUM = i := by
      rw [Nat.add_comm, Nat.add_mul_div_right _ _ hpos, Nat.div_eq_of_lt hn, Nat.zero_add]
    simp only [List.getElem_take, List.getElem_drop, dealt, List.getElem_map, List.getElem_range,
      hmod, hdiv]
  refine List.pairwise_iff_getElem.mpr fun m n hm hn hmn => ?_
  rw [hat m hm, hat n hn]
  exact Int.ofNat_le.mpr (Nat.add_le_add_right (Nat.mul_le_mul_right NTHR hmn.le) i)

/-- The first round takes from the first part, the second from the second one, and so on. -/
theorem merge_sorts_dealt : ∃ st, merge dealt = some st ∧ st.snums.Pairwise (· ≤ ·) ∧
    st.snums.Perm dealt ∧ ∀ p ∈ st.used, InPart p :=
  merge_sorts length_dealt dealt_sorted dealt_range

end Apue.BarrierMerge
