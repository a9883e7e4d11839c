import Apue.FtwTree

/-!
The walk makes the calls of the preorder traversal. The induction is on the tree, with a
statement on the entries of a directory beside the one on trees, and it says of the buffer
that the pathname a walk was made from is still at its start.
-/
namespace Apue.Ftw

open Decimal Buffers

section

variable {Stat : Type} {fs : FileSystem Stat} {func : List (Call Stat) → ℤ}

/-- How a part of the walk ends: if it has a result, then the calls are those up to the first that
does not return zero, and a text is still at the start of the buffer. It has a result if the
levels, the buffer and the names are `enough`. -/
structure Ends (func : List (Call Stat) → ℤ) (w : Walk Stat) (text : Path)
    (calls : List (Call Stat)) (enough : Prop) (r : Option (ℤ × Walk Stat)) : Prop where
  result : ∀ ret w', r = some (ret, w') → (ret, w'.calls) = callsUntil func w.calls calls
  size_le : ∀ ret w', r = some (ret, w') → w.fullpath.size ≤ w'.fullpath.size
  holds : ∀ ret w', r = some (ret, w') → w'.fullpath.Holds 0 text
  returns : enough → ∃ ret w', r = some (ret, w')

theorem Ends.mono {w : Walk Stat} {text text' : Path} {calls : List (Call Stat)}
    {enough enough' : Prop} {r : Option (ℤ × Walk Stat)} (h : Ends func w text calls enough r)
    (htext : text' <+: text) (henough : enough' → enough) : Ends func w text' calls enough' r :=
  ⟨h.result, h.size_le, fun ret w' hr => (h.holds ret w' hr).of_begins htext,
    fun hn => h.returns (henough hn)⟩

/-- What is done with the result of a part that returned zero comes after it. -/
theorem Ends.next {w w₁ : Walk Stat} {text : Path} {calls₁ calls₂ : List (Call Stat)}
    {enough : Prop} {r₁ : Option (ℤ × Walk Stat)} {k : ℤ → Walk Stat → Option (ℤ × Walk Stat)}
    (h₁ : Ends func w₁ text calls₁ enough r₁) (hcalls : w₁.calls = w.calls)
    (hsize : w.fullpath.size ≤ w₁.fullpath.size)
    (hk : ∀ w', w₁.fullpath.size ≤ w'.fullpath.size → w'.fullpath.Holds 0 text →
      Ends func w' text calls₂ enough (k 0 w')) :
    Ends func w text (calls₁ ++ calls₂) enough
      (r₁.bind fun x => if x.1 ≠ 0 then some (x.1, x.2) else k x.1 x.2) := by
  cases hr₁ : r₁ with
  | none =>
    refine ⟨nofun, nofun, nofun, fun hn => ?_⟩
    obtain ⟨ret, w', hr⟩ := h₁.returns hn
    exact absurd (hr₁.symm.trans hr) nofun
  | some x =>
    obtain ⟨ret₁, w'⟩ := x
    have hresult := h₁.result ret₁ w' hr₁
    have hsize' := h₁.size_le ret₁ w' hr₁
    have hholds := h₁.holds ret₁ w' hr₁
    rw [hcalls] at hresult
    by_cases hstop : ret₁ ≠ 0
    · have hfirst : (callsUntil func w.calls calls₁).1 ≠ 0 := by
        rw [← hresult]
        exact hstop
      simp only [Option.bind_some, if_pos hstop]
      refine ⟨?_, ?_, ?_, fun _ => ⟨_, _, rfl⟩⟩
      · rintro ret w'' hr
        obtain ⟨rfl, rfl⟩ := Prod.mk.inj (Option.some.inj hr)
        rw [callsUntil_append_of_ne hfirst, hresult]
      · rintro ret w'' hr
        obtain ⟨rfl, rfl⟩ := Prod.mk.inj (Option.some.inj hr)
        exact hsize.trans hsize'
      · rintro ret w'' hr
        obtain ⟨rfl, rfl⟩ := Prod.mk.inj (Option.some.inj hr)
        exact hholds
    · have hfirst : (callsUntil func w.calls calls₁).1 = 0 := by
        rw [← hresult]
        exact not_not.mp hstop
      have hrest := hk w' hsize' hholds
      have hzero := not_not.mp hstop
      simp only [Option.bind_some, if_neg hstop]
      subst hzero
      refine ⟨fun ret w'' hr => ?_, fun ret w'' hr => ?_, hrest.holds, hrest.returns⟩
      · rw [hrest.result ret w'' hr, callsUntil_append_of_eq hfirst, ← hresult]
      · exact (hsize.trans hsize').trans (hrest.size_le ret w'' hr)

/-- A walk that makes one call. -/
theorem ends_call {w : Walk Stat} {text : Path} (c : Call Stat) (enough : Prop)
    (h : w.fullpath.Holds 0 text) : Ends func w text [c] enough (some (w.call func c)) := by
  refine ⟨?_, ?_, ?_, fun _ => ⟨_, _, rfl⟩⟩
  · rintro ret w' hr
    obtain ⟨rfl, rfl⟩ := Prod.mk.inj (Option.some.inj hr)
    exact (callsUntil_singleton func w.calls c).symm
  · rintro ret w' hr
    obtain ⟨-, rfl⟩ := Prod.mk.inj (Option.some.inj hr)
    exact le_refl _
  · rintro ret w' hr
    obtain ⟨-, rfl⟩ := Prod.mk.inj (Option.some.inj hr)
    exact h

/-- Dot and dot-dot make no difference to the loop over the names. -/
theorem entries_filter (walk : Walk Stat → Option (ℤ × Walk Stat)) (n : ℕ) (names : List Path)
    (ret : ℤ) (w : Walk Stat) :
    entries walk n names ret w = entries walk n (names.filter isEntry) ret w := by
  induction names generalizing ret w with
  | nil => rfl
  | cons name names ih =>
    by_cases hdot : name = dot ∨ name = dotDot
    · have hentry : isEntry name = false := by rcases hdot with rfl | rfl <;> decide
      rw [List.filter_cons_of_neg (by simp [hentry]), ← ih]
      simp only [entries, if_pos hdot]
    · have hentry : isEntry name = true := by simpa [isEntry] using hdot
      rw [List.filter_cons_of_pos hentry]
      simp only [entries, if_neg hdot, ih]

/-- The buffer has room for a name behind the slash. -/
theorem size_expand {buf : Buffer Byte} {n : ℕ} (hn : n < buf.size) (hname : NAME_MAX < buf.size) :
    n + NAME_MAX + 2 ≤ (expand buf n).size := by
  unfold expand
  split
  · change n + NAME_MAX + 2 ≤ buf.size + buf.size
    omega
  · omega

/-- There is room for the slash and the null, whatever the size was. -/
theorem slash_lt_expand {buf : Buffer Byte} {n : ℕ} (hn : n < buf.size) :
    n + 1 < (expand buf n).size := by
  unfold expand
  split
  · change n + 1 < buf.size + buf.size
    omega
  · omega

theorem size_le_expand (buf : Buffer Byte) (n : ℕ) : buf.size ≤ (expand buf n).size := by
  unfold expand
  split
  · exact Nat.le_add_right _ _
  · exact le_refl _

theorem holds_expand {buf : Buffer Byte} {text : Path} (h : buf.Holds 0 text) (n : ℕ) :
    (expand buf n).Holds 0 text := by
  unfold expand
  split
  · exact h.grow _
  · exact h

/-- The buffer after the slash was appended. -/
theorem append_slash {buf : Buffer Byte} {path : Path} (h : buf.Holds 0 path)
    (hlt : path.length < buf.size) :
    ∃ buf₁ buf₂, (expand buf path.length).set path.length slash = some buf₁ ∧
      buf₁.set (path.length + 1) 0 = some buf₂ ∧
      buf₂.size = (expand buf path.length).size ∧ buf₂.Holds 0 (path ++ [slash] ++ [0]) := by
  have hroom := slash_lt_expand hlt
  obtain ⟨buf₁, hset₁, hsize₁, -, -⟩ := Buffer.set_eq_some
    (b := expand buf path.length) (v := slash) (show path.length < _ by omega)
  have hholds₁ := (holds_set (holds_expand h path.length) hset₁).2
  obtain ⟨buf₂, hset₂, hsize₂, -, -⟩ := Buffer.set_eq_some
    (b := buf₁) (v := 0) (show path.length + 1 < _ by omega)
  have hlen : (path ++ [slash]).length = path.length + 1 := by simp
  have hholds₂ := (holds_set hholds₁ (hlen ▸ hset₂)).2
  exact ⟨buf₁, buf₂, hset₁, hset₂, hsize₂.trans hsize₁, hholds₂⟩

/-- The walk in a directory goes on after the call for it. -/
theorem dopath_dir {fuel : ℕ} {w : Walk Stat} {path : Path} {status : Stat}
    (hpath : cstring w.fullpath = some path) (hstat : fs.lstat path = some status)
    (hdir : fs.isDir status = true) :
    dopath fs func (fuel + 1) w =
      (some (w.call func ⟨path, some status, .FTW_D⟩)).bind fun x =>
        if x.1 ≠ 0 then some (x.1, x.2)
        else descend fs func (dopath fs func fuel) path status x.1 x.2 := by
  simp only [dopath, hpath, hstat, hdir, Bool.true_eq_false, if_false, Option.bind_eq_bind,
    Option.bind_some]

/-- The length of a pathname that was stat'ed is an int. -/
theorem FileSystem.length_le {path : Path} {status : Stat} (h : fs.lstat path = some status) :
    ¬ INT_MAX < path.length + NAME_MAX + 2 := by
  intro hlong
  rw [fs.lstat_long path hlong] at h
  exact absurd h nofun

theorem descend_unopenable {walk : Walk Stat → Option (ℤ × Walk Stat)} {path : Path}
    {status : Stat} {w : Walk Stat} (hstat : fs.lstat path = some status)
    (hopen : fs.opendir (path ++ [slash]) = none) (hpath : 0 ∉ path)
    (hw : w.fullpath.Holds 0 path) (hlt : path.length < w.fullpath.size) (enough : Prop) :
    Ends func w path [⟨path ++ [slash], some status, .FTW_DNR⟩] enough
      (descend fs func walk path status 0 w) := by
  obtain ⟨buf₁, buf₂, hset₁, hset₂, hsize, hholds⟩ := append_slash hw hlt
  have hslash : 0 ∉ path ++ [slash] := by
    simp only [List.mem_append, List.mem_singleton, not_or]
    exact ⟨hpath, by decide⟩
  have hcall := @ends_call Stat func { w with fullpath := buf₂ } path
    ⟨path ++ [slash], some status, .FTW_DNR⟩ enough
    (hholds.of_begins ((List.prefix_append _ _).trans (List.prefix_append (path ++ [slash]) [0])))
  unfold descend
  rw [if_neg (fs.length_le hstat)]
  simp only [hset₁, hset₂, cstring_eq hholds hslash, hopen, Option.bind_eq_bind, Option.bind_some]
  refine ⟨hcall.result, fun ret w' hr => ?_, hcall.holds, hcall.returns⟩
  exact ((size_le_expand _ _).trans hsize.ge).trans (hcall.size_le ret w' hr)

theorem descend_dir {walk : Walk Stat → Option (ℤ × Walk Stat)} {path : Path} {status : Stat}
    {names : List Path} {calls : List (Call Stat)} {w : Walk Stat} {enough : Prop}
    (hstat : fs.lstat path = some status) (hopen : fs.opendir (path ++ [slash]) = some names)
    (hpath : 0 ∉ path) (hw : w.fullpath.Holds 0 path) (hlt : path.length < w.fullpath.size)
    (hloop : ∀ w', w'.fullpath.size = (expand w.fullpath path.length).size →
      w'.fullpath.Holds 0 (path ++ [slash]) →
      Ends func w' (path ++ [slash]) calls enough (entries walk (path.length + 1) names 0 w')) :
    Ends func w path calls enough (descend fs func walk path status 0 w) := by
  obtain ⟨buf₁, buf₂, hset₁, hset₂, hsize, hholds⟩ := append_slash hw hlt
  have hslash : 0 ∉ path ++ [slash] := by
    simp only [List.mem_append, List.mem_singleton, not_or]
    exact ⟨hpath, by decide⟩
  have hentries := hloop { w with fullpath := buf₂ } hsize
    (hholds.of_begins (List.prefix_append (path ++ [slash]) [0]))
  have hgrown : w.fullpath.size ≤ buf₂.size := (size_le_expand _ _).trans hsize.ge
  unfold descend
  rw [if_neg (fs.length_le hstat)]
  simp only [hset₁, hset₂, cstring_eq hholds hslash, hopen, Option.bind_eq_bind, Option.bind_some,
    Nat.add_sub_cancel]
  cases hr : entries walk (path.length + 1) names 0 { w with fullpath := buf₂ } with
  | none =>
    refine ⟨nofun, nofun, nofun, fun hn => ?_⟩
    obtain ⟨ret, w', hsome⟩ := hentries.returns hn
    exact absurd (hr.symm.trans hsome) nofun
  | some x =>
    obtain ⟨ret, w'⟩ := x
    have hresult := hentries.result ret w' hr
    have hsize' := hentries.size_le ret w' hr
    have hheld := hentries.holds ret w' hr
    have hroom := hheld.le_size (by simp)
    simp only [List.length_append, List.length_singleton, Nat.zero_add] at hroom
    -- everything from the slash on is erased
    obtain ⟨buf₃, hset₃, hsize₃, -, -⟩ := Buffer.set_eq_some
      (b := w'.fullpath) (v := 0) (show path.length < _ by omega)
    have herased := (holds_set (hheld.of_begins (List.prefix_append path [slash])) hset₃).2
    simp only [Option.bind_some, hset₃]
    refine ⟨?_, ?_, ?_, fun _ => ⟨_, _, rfl⟩⟩
    · rintro ret' w'' hsome
      obtain ⟨rfl, rfl⟩ := Prod.mk.inj (Option.some.inj hsome)
      exact hresult
    · rintro ret' w'' hsome
      obtain ⟨-, rfl⟩ := Prod.mk.inj (Option.some.inj hsome)
      exact (hgrown.trans hsize').trans hsize₃.ge
    · rintro ret' w'' hsome
      obtain ⟨-, rfl⟩ := Prod.mk.inj (Option.some.inj hsome)
      exact herased.of_begins (List.prefix_append path [0])

theorem isEntry_of_mem_names {path : Path} {names : List Path}
    (hopen : fs.opendir path = some names) {name : Path} (h : name ∈ names.filter isEntry) :
    0 ∉ name ∧ isEntry name = true :=
  have hmem := List.mem_filter.mp h
  ⟨fs.readdir_string path names hopen name hmem.1, hmem.2⟩

mutual

/-- The walk from a pathname makes the calls for the tree there, and keeps the pathname. -/
theorem dopath_ends (tree : Tree Stat) {path : Path} (hat : tree.At fs path) (hpath : 0 ∉ path)
    {w : Walk Stat} (hw : w.fullpath.Holds 0 (path ++ [0])) (fuel : ℕ) :
    Ends func w path (tree.preorder path)
      (tree.height < fuel ∧ NAME_MAX < w.fullpath.size ∧ tree.Short) (dopath fs func fuel w) := by
  have hcstring := cstring_eq hw hpath
  have hholds := hw.of_begins (List.prefix_append path [0])
  have hlt := hw.le_size (by simp)
  simp only [List.length_append, List.length_singleton, Nat.zero_add] at hlt
  cases fuel with
  | zero => exact ⟨nofun, nofun, nofun, fun hn => absurd hn.1 (Nat.not_lt_zero _)⟩
  | succ fuel =>
    cases tree with
    | unstatable =>
      simp only [Tree.At] at hat
      simp only [dopath, hcstring, hat, Option.bind_eq_bind, Option.bind_some]
      exact ends_call _ _ hholds
    | other status =>
      obtain ⟨hstat, hdir⟩ := hat
      simp only [dopath, hcstring, hstat, hdir, if_true, Option.bind_eq_bind, Option.bind_some]
      exact ends_call _ _ hholds
    | unopenable status =>
      obtain ⟨hstat, hdir, hopen⟩ := hat
      rw [dopath_dir hcstring hstat hdir]
      refine Ends.next (w := w) (k := descend fs func (dopath fs func fuel) path status)
        (ends_call ⟨path, some status, .FTW_D⟩ _ hholds) rfl (le_refl _) fun w' hw' hholds' => ?_
      exact descend_unopenable hstat hopen hpath hholds' (Nat.lt_of_lt_of_le hlt hw') _
    | dir status es =>
      obtain ⟨hstat, hdir, ⟨names, hopen, hfilter⟩, hes⟩ := hat
      rw [dopath_dir hcstring hstat hdir]
      refine Ends.next (w := w) (k := descend fs func (dopath fs func fuel) path status)
        (ends_call ⟨path, some status, .FTW_D⟩ _ hholds) rfl (le_refl _) fun w' hw' hholds' => ?_
      have hlt' := Nat.lt_of_lt_of_le hlt hw'
      refine descend_dir hstat hopen hpath hholds' hlt' fun w'' hsize hslash => ?_
      rw [entries_filter, hfilter]
      refine (entries_ends es hes hpath (fun name hname => isEntry_of_mem_names hopen
        (hfilter ▸ hname)) hslash fuel).mono (List.prefix_refl _) ?_
      rintro ⟨hheight, hname, hshort⟩
      refine ⟨Nat.lt_of_succ_lt_succ hheight, ?_, hshort⟩
      rw [hsize]
      exact size_expand hlt' (Nat.lt_of_lt_of_le hname hw')

/-- The loop over the entries of a directory makes the calls for each of them. -/
theorem entries_ends (es : Entries Stat) {path : Path} (hat : es.At fs path) (hpath : 0 ∉ path)
    (hnames : ∀ name ∈ es.names, 0 ∉ name ∧ isEntry name = true)
    {w : Walk Stat} (hw : w.fullpath.Holds 0 (path ++ [slash])) (fuel : ℕ) :
    Ends func w (path ++ [slash]) (es.preorder path)
      (es.height < fuel ∧ path.length + NAME_MAX + 2 ≤ w.fullpath.size ∧ es.Short)
      (entries (dopath fs func fuel) (path.length + 1) es.names 0 w) := by
  cases es with
  | nil =>
    refine ⟨?_, ?_, ?_, fun _ => ⟨_, _, rfl⟩⟩
    · rintro ret w' hr
      obtain ⟨rfl, rfl⟩ := Prod.mk.inj (Option.some.inj hr)
      rfl
    · rintro ret w' hr
      obtain ⟨-, rfl⟩ := Prod.mk.inj (Option.some.inj hr)
      exact le_refl _
    · rintro ret w' hr
      obtain ⟨-, rfl⟩ := Prod.mk.inj (Option.some.inj hr)
      exact hw
  | cons name tree rest =>
    obtain ⟨htree, hrest⟩ := hat
    obtain ⟨hstring, hentry⟩ := hnames name List.mem_cons_self
    have hnotDot : ¬ (name = dot ∨ name = dotDot) := by simpa [isEntry] using hentry
    have hlength : (path ++ [slash]).length = path.length + 1 := by simp
    have hchild : 0 ∉ path ++ slash :: name := by
      simp only [List.mem_append, List.mem_cons, not_or]
      exact ⟨hpath, by decide, hstring⟩
    simp only [Entries.names, entries, if_neg hnotDot, ← hlength, Option.bind_eq_bind]
    cases hcopy : strcpy w.fullpath (path ++ [slash]).length name with
    | none =>
      refine ⟨nofun, nofun, nofun, fun ⟨_, hroom, hshort, _⟩ => ?_⟩
      unfold strcpy at hcopy
      rw [if_pos (by omega)] at hcopy
      exact absurd hcopy nofun
    | some fullpath =>
      obtain ⟨hsize, hfull⟩ := strcpy_eq_some hw hcopy
      have hsplit : path ++ [slash] ++ name = path ++ slash :: name := by simp
      rw [hsplit] at hfull
      have hwalk := dopath_ends tree htree hchild
        (w := { w with fullpath := fullpath }) hfull fuel
      refine Ends.next (w := w) (k := entries (dopath fs func fuel) (path ++ [slash]).length
        rest.names) (hwalk.mono ⟨name, hsplit⟩ ?_) rfl hsize.ge fun w' hw' hholds' => ?_
      · rintro ⟨hheight, hroom, -, hshort, -⟩
        exact ⟨(le_max_left _ _).trans_lt hheight, by change _ < fullpath.size; omega, hshort⟩
      · have hnext := entries_ends rest hrest hpath
          (fun name' hname' => hnames name' (List.mem_cons_of_mem name hname')) hholds' fuel
        rw [hlength]
        refine hnext.mono (List.prefix_refl _) ?_
        rintro ⟨hheight, hroom, -, -, hshort⟩
        refine ⟨(le_max_right _ _).trans_lt hheight, ?_, hshort⟩
        change fullpath.size ≤ _ at hw'
        omega

end

/-- A walk whose pathname was stored in the buffer ends as the tree says. -/
theorem ends_of_strcpy (func : List (Call Stat) → ℤ) {tree : Tree Stat} {start : Path}
    (hstart : 0 ∉ start) (htree : tree.At fs start) {buf fullpath : Buffer Byte}
    (hcopy : strcpy buf 0 start = some fullpath) (fuel : ℕ) :
    Ends func ⟨fullpath, []⟩ start (tree.preorder start)
      (tree.height < fuel ∧ NAME_MAX < buf.size ∧ tree.Short)
      (dopath fs func fuel ⟨fullpath, []⟩) := by
  obtain ⟨hsize, hholds⟩ := @strcpy_eq_some buf fullpath [] start trivial hcopy
  refine (dopath_ends tree htree hstart (w := ⟨fullpath, []⟩) hholds fuel).mono
    (List.prefix_refl _) ?_
  rintro ⟨hheight, hname, hshort⟩
  exact ⟨hheight, hname.trans_eq hsize.symm, hshort⟩

/-- The calls that the walk makes are those of the preorder traversal up to the first that does
not return zero, and the walk returns what the last one returned. With a buffer that is longer
than a name, and names that are not too long, no access is outside the buffer. -/
theorem myftw_preorder (func : List (Call Stat) → ℤ) (limits : Limits) (memory : ℕ → Byte)
    {tree : Tree Stat} {start : Path} (hstart : 0 ∉ start) (htree : tree.At fs start) :
    (∀ fuel r, myftw fs func limits memory fuel start = some r →
      r = callsUntil func [] (tree.preorder start)) ∧
    ∀ pathlen, pathAlloc limits = some pathlen → NAME_MAX < pathlen → tree.Short →
      ∀ fuel, tree.height < fuel →
        myftw fs func limits memory fuel start =
          some (callsUntil func [] (tree.preorder start)) := by
  refine ⟨fun fuel r hr => ?_, fun pathlen halloc hname hshort fuel hheight => ?_⟩
  · unfold myftw at hr
    simp only [Option.bind_eq_bind, Option.bind_eq_some_iff] at hr
    obtain ⟨pathlen, -, fullpath, hcopy, ⟨ret, w⟩, hwalk, hsome⟩ := hr
    obtain rfl := Option.some.inj hsome
    exact (ends_of_strcpy func hstart htree hcopy fuel).result ret w hwalk
  · let size := if pathlen ≤ start.length then start.length * 2 else pathlen
    have hsize : start.length + 1 ≤ size ∧ NAME_MAX < size := by
      by_cases hlong : pathlen ≤ start.length
      · rw [show size = start.length * 2 from if_pos hlong]
        omega
      · rw [show size = pathlen from if_neg hlong]
        omega
    have hcopy : strcpy ⟨size, memory⟩ 0 start =
        some ((⟨size, memory⟩ : Buffer Byte).write 0 (start ++ [0])) :=
      if_pos (by rw [Nat.zero_add]; exact hsize.1)
    have hends := ends_of_strcpy func hstart htree hcopy fuel
    obtain ⟨ret, w, hwalk⟩ := hends.returns ⟨hheight, hsize.2, hshort⟩
    have hresult := hends.result ret w hwalk
    unfold myftw
    simp only [halloc, Option.bind_eq_bind, Option.bind_some]
    change (strcpy ⟨size, memory⟩ 0 start).bind _ = _
    rw [hcopy, Option.bind_some, hwalk, Option.bind_some, hresult]

/-- A directory d with a file f and a directory u that cannot be opened. -/
def smallFiles : FileSystem Bool where
  lstat path :=
    if path = [100] then some true
    else if path = [100, 47, 102] then some false
    else if path = [100, 47, 117] then some true
    else none
  isDir status := status
  opendir path := if path = [100, 47] then some [dot, [102], dotDot, [117]] else none
  lstat_long path hlong := by
    unfold INT_MAX at hlong
    have hne : ∀ text : Path, text.length < 9 → path ≠ text := by
      rintro text htext rfl
      unfold NAME_MAX at hlong
      omega
    rw [if_neg (hne _ (by decide)), if_neg (hne _ (by decide)), if_neg (hne _ (by decide))]
  readdir_string path names hopen := by
    split at hopen
    · obtain rfl := Option.some.inj hopen
      decide
    · exact absurd hopen nofun

theorem myftw_preorder_small :
    (∀ fuel r, myftw smallFiles (fun _ => 0) ⟨some 1024, 200809, 700, .error⟩ (fun _ => 0) fuel
        [100] = some r →
      r = (0, [⟨[100], some true, .FTW_D⟩, ⟨[100, 47, 102], some false, .FTW_F⟩,
        ⟨[100, 47, 117], some true, .FTW_D⟩, ⟨[100, 47, 117, 47], some true, .FTW_DNR⟩])) ∧
    ∀ pathlen, pathAlloc ⟨some 1024, 200809, 700, .error⟩ = some pathlen → NAME_MAX < pathlen →
      (Tree.dir true (.cons [102] (.other false) (.cons [117] (.unopenable true) .nil))).Short →
      ∀ fuel, 1 < fuel →
        myftw smallFiles (fun _ => 0) ⟨some 1024, 200809, 700, .error⟩ (fun _ => 0) fuel [100] =
          some (0, [⟨[100], some true, .FTW_D⟩, ⟨[100, 47, 102], some false, .FTW_F⟩,
            ⟨[100, 47, 117], some true, .FTW_D⟩, ⟨[100, 47, 117, 47], some true, .FTW_DNR⟩]) :=
  @myftw_preorder Bool smallFiles (fun _ => 0) _ (fun _ => 0)
    (.dir true (.cons [102] (.other false) (.cons [117] (.unopenable true) .nil))) [100]
    (by decide) ⟨rfl, rfl, ⟨_, rfl, rfl⟩, ⟨rfl, rfl⟩, ⟨rfl, rfl, rfl⟩, trivial⟩

end

end Apue.Ftw
