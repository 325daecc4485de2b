import SchemaByExample.Files.Disk

/-! What writing changes on a disk. The directories above an output file are made where they
are missing, and nothing else is touched on the way. -/
namespace SchemaByExample.Files

namespace Disk

variable {d d' : Disk}

theorem find?_map_replace (entries : List (Location × Entry)) (here l : Location) (e : Entry) :
    (entries.map fun x => if x.1 = here then (here, e) else x).find? (·.1 = l) =
      if l = here then (entries.find? (·.1 = here)).map fun _ => (here, e)
      else entries.find? (·.1 = l) := by
  induction entries with
  | nil => simp
  | cons x rest ih =>
    rw [List.map_cons]
    by_cases hx : x.1 = here
    · by_cases hl : l = here
      · simp [hx, hl]
      · simp [hx, hl, Ne.symm hl, ih]
    · rw [if_neg hx, List.find?_cons, List.find?_cons, List.find?_cons, ih]
      by_cases hl : l = here
      · simp [hx, hl]
      · simp [hl]

theorem lookup_put {here : Location} (hne : here ≠ []) (d : Disk) (e : Entry) (l : Location) :
    (d.put here e).lookup l = if l = here then some e else d.lookup l := by
  by_cases hl : l = []
  · subst hl
    simp [lookup, Ne.symm hne]
  simp only [lookup, if_neg hl, put]
  split
  · rename_i hany
    obtain ⟨x, hx⟩ := Option.isSome_iff_exists.mp (List.find?_isSome.mpr (List.any_eq_true.mp hany))
    rw [find?_map_replace]
    split
    · rw [hx]
      rfl
    · rfl
  · rename_i hany
    rw [Bool.not_eq_true, List.any_eq_false] at hany
    rw [List.find?_append]
    split
    · rename_i heq
      have hnone : d.entries.find? (·.1 = l) = none := by
        rw [List.find?_eq_none]
        intro x hx
        rw [heq]
        exact hany x hx
      rw [hnone, heq]
      simp
    · rename_i hneq
      have hlast : List.find? (fun x => decide (x.1 = l)) [(here, e)] = none := by
        simp [Ne.symm hneq]
      rw [hlast, Option.or_none]

theorem home_put (d : Disk) (here : Location) (e : Entry) : (d.put here e).home = d.home := by
  rw [put]
  split <;> rfl

theorem lookup_nil (d : Disk) : d.lookup [] = some .directory := if_pos rfl

/-- Directories stay directories, and relative paths begin where they did. -/
structure Keeps (d d' : Disk) : Prop where
  home : d'.home = d.home
  directory : ∀ ⦃l⦄, d.lookup l = some .directory → d'.lookup l = some .directory

/-- A place that was reached is reached again, since only directories are passed. -/
theorem Keeps.walk (h : Keeps d d') {here l : Location} {names : List String}
    (hw : d.walk here names = .ok l) : d'.walk here names = .ok l := by
  induction names generalizing here with
  | nil => exact hw
  | cons name rest ih =>
    rw [Disk.walk] at hw ⊢
    split at hw
    · cases hw
    · cases hw
    · rename_i hdir
      rw [h.directory hdir]
      dsimp only
      split at hw
      · rename_i hname
        rw [if_pos hname]
        exact ih hw
      · rename_i hname
        rw [if_neg hname]
        split at hw
        · rename_i hup
          rw [if_pos hup]
          exact ih hw
        · rename_i hup
          rw [if_neg hup]
          split at hw
          · cases hw
          · rename_i hlength
            rw [if_neg hlength]
            exact ih hw

theorem Keeps.locate (h : Keeps d d') {path : String} {l : Location}
    (hl : d.locate path = .ok l) : d'.locate path = .ok l := by
  rw [Disk.locate] at hl ⊢
  split at hl
  · cases hl
  · rename_i hpath
    rw [if_neg hpath, h.home]
    exact h.walk hl

/-- Wherever the disks differ, a directory was made at the place of one of the paths. -/
structure Adds (paths : String → Prop) (d d' : Disk) : Prop where
  home : d'.home = d.home
  made : ∀ l, d'.lookup l = d.lookup l ∨
    d.lookup l = none ∧ d'.lookup l = some .directory ∧ ∃ p, paths p ∧ d'.locate p = .ok l

namespace Adds

variable {paths paths' : String → Prop} {d'' : Disk}

theorem keeps (h : Adds paths d d') : Keeps d d' := by
  refine ⟨h.home, fun l hl => ?_⟩
  obtain heq | ⟨-, hmade, -⟩ := h.made l
  · rw [heq, hl]
  · exact hmade

theorem refl (paths : String → Prop) (d : Disk) : Adds paths d d := ⟨rfl, fun _ => .inl rfl⟩

theorem mono (h : Adds paths d d') (hp : ∀ p, paths p → paths' p) : Adds paths' d d' := by
  refine ⟨h.home, fun l => (h.made l).imp_right ?_⟩
  rintro ⟨hnone, hmade, p, hpath, hl⟩
  exact ⟨hnone, hmade, p, hp p hpath, hl⟩

theorem trans (h : Adds paths d d') (h' : Adds paths d' d'') : Adds paths d d'' := by
  refine ⟨h'.home.trans h.home, fun l => ?_⟩
  obtain heq | ⟨hnone, hmade, p, hp, hl⟩ := h.made l
  · rw [← heq]
    exact h'.made l
  · exact .inr ⟨hnone, h'.keeps.directory hmade, p, hp, h'.keeps.locate hl⟩

end Adds

theorem adds_makeDirectory {path : String} (h : d.makeDirectory path = .ok d') :
    Adds (· = path) d d' := by
  cases hlocate : d.locate path with
  | error e =>
    rw [makeDirectory, hlocate] at h
    cases h
  | ok here =>
    simp only [makeDirectory, hlocate, bind, Except.bind] at h
    split at h
    · cases h
    · rename_i hnone
      cases h
      have hne : here ≠ [] := by
        rintro rfl
        rw [lookup_nil] at hnone
        cases hnone
      have hput := lookup_put hne d .directory
      have hkeeps : Keeps d (d.put here .directory) := by
        refine ⟨home_put .., fun l hl => ?_⟩
        rw [hput]
        split
        · rfl
        · exact hl
      refine ⟨home_put .., fun l => ?_⟩
      rw [hput]
      split
      · rename_i heq
        subst heq
        exact .inr ⟨hnone, rfl, path, rfl, hkeeps.locate hlocate⟩
      · exact .inl rfl

/-- A file is put at the place of its path, where no directory is. -/
theorem write_eq_ok {path : String} {content : Bytes} (h : d.write path content = .ok d') :
    ∃ here, d.locate path = .ok here ∧ d.lookup here ≠ some .directory ∧
      d' = d.put here (.file content) := by
  rw [write] at h
  split at h
  · simp only [bind, Except.bind] at h
    split at h <;> cases h
  · cases hlocate : d.locate path with
    | error e =>
      rw [hlocate] at h
      cases h
    | ok here =>
      simp only [hlocate, bind, Except.bind] at h
      split at h
      · cases h
      · rename_i hne
        cases h
        exact ⟨here, rfl, hne, rfl⟩

end Disk

/-! The paths above a path. -/

/-- The path goes on behind the other one, with a slash and at least one more character. -/
def Above (p path : String) : Prop :=
  ∃ more, more ≠ [] ∧ path.toList = p.toList ++ '/' :: more

theorem Above.trans {p q path : String} (h : Above p q) (h' : Above q path) : Above p path := by
  obtain ⟨more, -, hq⟩ := h
  obtain ⟨more', -, hpath⟩ := h'
  refine ⟨more ++ '/' :: more', by simp, ?_⟩
  rw [hpath, hq, List.append_assoc, List.cons_append]

/-- What is dropped from the end of a path ends in front with a slash, unless only a slash is
left of the path. -/
theorem trimPath_append (fuel : Nat) (reversed : List Char) :
    ∃ dropped, reversed = dropped ++ trimPath fuel reversed ∧
      (dropped = [] ∨ dropped.getLast? = some '/' ∨
        (trimPath fuel reversed).head? = some '/') := by
  fun_induction trimPath fuel reversed with
  | case1 reversed => exact ⟨[], rfl, .inl rfl⟩
  | case2 fuel c rest ih =>
    obtain ⟨dropped, heq, hlast⟩ := ih
    refine ⟨'/' :: dropped, by rw [List.cons_append, ← heq], .inr ?_⟩
    obtain rfl | hlast | hhead := hlast
    · exact .inl rfl
    · exact .inl (by simp [List.getLast?_cons, hlast])
    · exact .inr hhead
  | case3 fuel rest ih =>
    obtain ⟨dropped, heq, hlast⟩ := ih
    refine ⟨'.' :: dropped, by rw [List.cons_append, ← heq], .inr ?_⟩
    obtain rfl | hlast | hhead := hlast
    · rw [List.nil_append] at heq
      exact .inr (by rw [← heq]; rfl)
    · exact .inl (by simp [List.getLast?_cons, hlast])
    · exact .inr hhead
  | case4 => exact ⟨[], rfl, .inl rfl⟩

/-- With a step for each character no slash is left at the end but that of the root. -/
theorem trimPath_of_slash {fuel : Nat} {reversed rest : List Char}
    (hf : reversed.length ≤ fuel) (h : trimPath fuel reversed = '/' :: rest) : rest = [] := by
  fun_induction trimPath fuel reversed with
  | case1 reversed =>
    rw [h] at hf
    simp at hf
  | case2 fuel c more ih => exact ih (by simpa using hf) h
  | case3 fuel more ih => exact ih (by simpa using hf) h
  | case4 fuel reversed hslash _ =>
    cases rest with
    | nil => rfl
    | cons c rest => exact absurd h (hslash c rest)

theorem dropWhile_eq_cons {cs rest : List Char} {c : Char}
    (h : cs.dropWhile (· ≠ '/') = c :: rest) : c = '/' := by
  have hhead := List.head?_dropWhile_not (· ≠ '/') cs
  rw [h] at hhead
  simpa using hhead

/-- A path, from its end on, without its last name. -/
theorem trimPath_dropWhile {fuel : Nat} {reversed : List Char} (hf : reversed.length ≤ fuel)
    (hname : reversed.takeWhile (· ≠ '/') ≠ []) {kept : List Char}
    (hkept : trimPath fuel (reversed.dropWhile (· ≠ '/')) = kept) :
    kept = [] ∨ kept = ['/'] ∨ ∃ more, more ≠ [] ∧ reversed = more ++ '/' :: kept := by
  have hsplit := List.takeWhile_append_dropWhile (p := (· ≠ '/')) (l := reversed)
  have hlength : (reversed.dropWhile (· ≠ '/')).length ≤ fuel :=
    Nat.le_trans (List.dropWhile_sublist _).length_le hf
  obtain ⟨dropped, hupper, hlast⟩ := trimPath_append fuel (reversed.dropWhile (· ≠ '/'))
  rw [hkept] at hupper hlast
  cases kept with
  | nil => exact .inl rfl
  | cons k kept =>
    by_cases hk : k = '/'
    · subst hk
      exact .inr (.inl (by rw [trimPath_of_slash hlength hkept]))
    · refine .inr (.inr ?_)
      obtain rfl | hlast | hhead := hlast
      · exact absurd (dropWhile_eq_cons hupper) hk
      · -- what is dropped ends with the slash behind the parent
        obtain ⟨front, rfl⟩ := List.getLast?_eq_some_iff.mp hlast
        refine ⟨reversed.takeWhile (· ≠ '/') ++ front,
          List.append_ne_nil_of_left_ne_nil hname front, ?_⟩
        rw [hupper] at hsplit
        simpa using hsplit.symm
      · exact absurd (Option.some.inj hhead) hk

theorem parent?_eq_some {path p : String} (h : parent? path = some p) :
    p = "" ∨ p = "/" ∨ Above p path := by
  obtain ⟨tail, hpath, -⟩ := trimPath_append path.length path.toList.reverse
  have hroot : ∀ rest, trimPath path.length path.toList.reverse = '/' :: rest → rest = [] :=
    fun _ => trimPath_of_slash (Nat.le_of_eq (List.length_reverse.trans String.length_toList))
  simp only [parent?] at h
  generalize trimPath path.length path.toList.reverse = reversed at h hpath hroot
  split at h
  · cases h
  · cases h
  · rename_i hnil hslash
    obtain rfl := Option.some.inj h
    have hf : reversed.length ≤ path.length := by
      have hlength := congrArg List.length hpath
      simp only [List.length_reverse, String.length_toList, List.length_append] at hlength
      omega
    have hname : reversed.takeWhile (· ≠ '/') ≠ [] := by
      cases reversed with
      | nil => exact absurd rfl hnil
      | cons c rest =>
        have hc : c ≠ '/' := by
          rintro rfl
          exact hslash (by rw [hroot _ rfl])
        simp [hc]
    obtain hkept | hkept | ⟨more, hmore, hkept⟩ := trimPath_dropWhile hf hname rfl
    · exact .inl (by rw [hkept]; rfl)
    · exact .inr (.inl (by rw [hkept]; rfl))
    · refine .inr (.inr ⟨more.reverse ++ tail.reverse, by simp [hmore], ?_⟩)
      rw [hkept] at hpath
      have hwhole := congrArg List.reverse hpath
      simpa using hwhole

/-! Making the directories above an output file. -/

theorem makeDirectory_root (d : Disk) : d.makeDirectory "/" = .error .exists_ := by
  have hlocate : d.locate "/" = .ok [] := by
    have hnames : names "/" = [".", "."] := by decide
    have habsolute : isAbsolute "/" = true := by decide
    have hempty : "/".isEmpty = false := by decide
    simp only [Disk.locate, hempty, Bool.false_eq_true, if_false, habsolute, if_true, hnames,
      Disk.walk, Disk.lookup_nil]
  simp only [Disk.makeDirectory, hlocate, bind, Except.bind, Disk.lookup_nil]

def made (r : Except (OsError × Disk) Disk) : Disk :=
  match r with
  | .ok d => d
  | .error (_, d) => d

theorem made_makeDirectories_root (fuel : Nat) (d : Disk) :
    made (makeDirectories fuel "/" d) = d := by
  cases fuel with
  | zero => rfl
  | succ fuel =>
    have hne : "/".isEmpty = false := by decide
    simp only [makeDirectories, hne, Bool.false_eq_true, if_false, makeDirectory_root]
    split <;> rfl

theorem made_makeDirectories_empty (fuel : Nat) (d : Disk) :
    made (makeDirectories fuel "" d) = d := by
  cases fuel with
  | zero => rfl
  | succ fuel => rfl

/-- The directories that a path is in, however many of them are made. -/
theorem adds_above {path p : String} {fuel : Nat} {d : Disk} (hparent : parent? path = some p)
    (h : Disk.Adds (fun q => q = p ∨ Above q p) d (made (makeDirectories fuel p d))) :
    Disk.Adds (Above · path) d (made (makeDirectories fuel p d)) := by
  obtain rfl | rfl | hp := parent?_eq_some hparent
  · rw [made_makeDirectories_empty]
    exact .refl _ _
  · rw [made_makeDirectories_root]
    exact .refl _ _
  · refine h.mono ?_
    rintro q (rfl | hq)
    · exact hp
    · exact hq.trans hp

/-- Whether all directories of a path could be made or not, what is new are directories at
the path and above it. -/
theorem adds_makeDirectories (fuel : Nat) (path : String) (d : Disk) :
    Disk.Adds (fun p => p = path ∨ Above p path) d (made (makeDirectories fuel path d)) := by
  induction fuel generalizing path d with
  | zero => exact .refl _ _
  | succ fuel ih =>
    have hnew {d d' : Disk} (h : d.makeDirectory path = .ok d') :
        Disk.Adds (fun p => p = path ∨ Above p path) d d' :=
      (Disk.adds_makeDirectory h).mono fun _ => .inl
    rw [makeDirectories]
    split
    · exact .refl _ _
    · dsimp only
      cases hmake : d.makeDirectory path with
      | ok d' => exact hnew hmake
      | error e =>
        cases e with
        | notFound =>
          cases hparent : parent? path with
          | none => exact .refl _ _
          | some p =>
            have habove : Disk.Adds (fun q => q = path ∨ Above q path) d
                (made (makeDirectories fuel p d)) :=
              (adds_above hparent (ih p d)).mono fun _ => .inr
            dsimp only
            cases hrest : makeDirectories fuel p d with
            | error x =>
              rw [hrest] at habove
              exact habove
            | ok d' =>
              rw [hrest] at habove
              dsimp only
              cases hagain : d'.makeDirectory path with
              | ok d'' => exact habove.trans (hnew hagain)
              | error e =>
                dsimp only
                split <;> exact habove
        | _ =>
          dsimp only
          split <;> exact .refl _ _

end SchemaByExample.Files
