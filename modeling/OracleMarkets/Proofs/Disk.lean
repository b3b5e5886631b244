import OracleMarkets.Disk
import OracleMarkets.Proofs.Except

/-!
# What is written is read

A file that is written holds what was written, whatever is written to other files afterwards.
Finding the place of a file looks at nothing but the directories on the way, and a file is never
written where a directory is, nor a directory made where a file is.  So no change of a disk turns
the way to a file (`Disk.Extends`).
-/

namespace OracleMarkets

/-! ## Names -/

/-- Only an empty text and one that ends with a separator have an empty last part. -/
theorem Text.eq_nil_or_suffix_of_getLast?_split {sep : Char} {s : List Char}
    (h : (split sep s).getLast? = some []) : s = [] ∨ [sep] <:+ s := by
  induction s with
  | nil => exact .inl rfl
  | cons c s ih =>
    right
    have hrest (hs : (split sep s).getLast? = some []) (hne : s ≠ []) : [sep] <:+ c :: s :=
      ((ih hs).resolve_left hne).trans (List.suffix_cons c s)
    unfold split at h
    split at h
    · next hc =>
      rw [List.getLast?_cons_of_ne_nil (split_ne_nil sep s)] at h
      by_cases hs : s = []
      · subst hs hc
        exact List.suffix_rfl
      · exact hrest h hs
    · split at h
      · cases h
      · next part parts hsplit =>
        cases parts with
        | nil => cases h
        | cons part' parts =>
          rw [List.getLast?_cons_cons] at h
          refine hrest ?_ fun hs ↦ ?_
          · rw [hsplit, List.getLast?_cons_cons]
            exact h
          · rw [hs] at hsplit
            cases hsplit

/-- Only an empty path and one that ends with a slash have an empty last name. -/
theorem Path.getLast?_names_ne {path : String} (hne : path ≠ "")
    (hend : path.endsWith "/" = false) : (names path).getLast? ≠ some "" := by
  intro hlast
  rw [names, List.getLast?_map, Option.map_eq_some_iff] at hlast
  obtain ⟨part, hpart, hempty⟩ := hlast
  obtain rfl : part = [] := String.ofList_injective hempty
  rcases Text.eq_nil_or_suffix_of_getLast?_split hpart with hnil | hsuffix
  · exact hne (String.toList_injective hnil)
  · refine Bool.eq_false_iff.1 hend ?_
    rw [← String.endsWith_toSlice, String.Slice.endsWith_string_iff, String.copy_toSlice]
    exact hsuffix

namespace Disk

variable {d d' d'' : Disk} {place place' names rest : List String} {name path : String}

/-! ## Finding places -/

/-- The way may go on from the place: it is a directory and no file. -/
def IsOpen (d : Disk) (place : List String) : Prop :=
  d.files.contains place = false ∧ d.isDirectory place = true

/-- A way with names to come leads on only from an open place. -/
theorem isOpen_of_walk_cons (h : d.walk place (name :: rest) = .ok place') : d.IsOpen place := by
  unfold walk at h
  split at h
  · cases h
  · next hfile =>
    split at h
    · cases h
    · next hdir => exact ⟨Bool.eq_false_iff.2 hfile, by simpa using hdir⟩

/-- The way goes on by the name from an open place. -/
theorem walk_cons (h : d.IsOpen place) (name : String) (rest : List String) :
    d.walk place (name :: rest) =
      if Path.isIdle name then d.walk place rest
      else if name = ".." then d.walk place.dropLast rest
      else if Path.maxNameSize < name.utf8ByteSize then .error .nameTooLong
      else d.walk (place ++ [name]) rest := by
  rw [walk, if_neg (by rw [h.1]; exact Bool.false_ne_true), if_neg (by rw [h.2]; exact nofun)]

/-- The way to a place goes over any places in between. -/
theorem walk_append (place names rest : List String) :
    d.walk place (names ++ rest) = d.walk place names >>= fun p ↦ d.walk p rest := by
  induction names generalizing place with
  | nil => rfl
  | cons name names ih =>
    rw [List.cons_append, walk, walk]
    split
    · rfl
    · split
      · rfl
      · split
        · exact ih place
        · split
          · exact ih place.dropLast
          · split
            · rfl
            · exact ih (place ++ [name])

/-- A name that leads nowhere may be left out before another name. -/
theorem walk_idle (h : Path.isIdle name = true) (place : List String) (next : String)
    (rest : List String) :
    d.walk place (name :: next :: rest) = d.walk place (next :: rest) := by
  conv_lhs => rw [walk, if_pos h]
  split
  · next hfile => rw [walk, if_pos hfile]
  · next hfile =>
    split
    · next hdir => rw [walk, if_neg hfile, if_pos hdir]
    · rfl

/-- Empty names may be left out before another name. -/
theorem walk_filter (place : List String) (h : names.getLast? ≠ some "") :
    d.walk place (names.filter (· ≠ "")) = d.walk place names := by
  induction names generalizing place with
  | nil => rfl
  | cons name names ih =>
    cases names with
    | nil =>
      have hname : name ≠ "" := fun hname ↦ h (congrArg some hname)
      rw [List.filter_cons_of_pos (by simpa using hname), List.filter_nil]
    | cons next names =>
      rw [List.getLast?_cons_cons] at h
      by_cases hname : name = ""
      · rw [List.filter_cons_of_neg (by simpa using hname), ih place h,
            walk_idle (by rw [hname]; rfl)]
      · have hih (place : List String) := ih place h
        rw [List.filter_cons_of_pos (by simpa using hname), walk, walk]
        simp only [hih]

/-- The way is the same where each open place is still open. -/
theorem walk_eq_ok_of_isOpen (hopen : ∀ p, d.IsOpen p → d'.IsOpen p)
    (h : d.walk place names = .ok place') : d'.walk place names = .ok place' := by
  induction names generalizing place with
  | nil => exact h
  | cons name names ih =>
    have hplace := isOpen_of_walk_cons h
    rw [walk_cons hplace] at h
    rw [walk_cons (hopen place hplace)]
    split
    · next hidle => exact ih (by rwa [if_pos hidle] at h)
    · next hidle =>
      rw [if_neg hidle] at h
      split
      · next hup => exact ih (by rwa [if_pos hup] at h)
      · next hup =>
        rw [if_neg hup] at h
        split
        · next hlong => rwa [if_pos hlong] at h
        · next hlong => exact ih (by rwa [if_neg hlong] at h)

/-! ## Places of files -/

/-- The path may be that of a file: it is neither empty nor too long, and its last name is that of
an entry of a directory. -/
structure IsFilePath (path : String) : Prop where
  size : path.utf8ByteSize ≤ Path.maxSize
  name : ∃ name, ((Path.names path).filter (· ≠ "")).getLast? = some name ∧ name ≠ "." ∧ name ≠ ".."
  end_eq : path.endsWith "/" = false

theorem IsFilePath.ne_empty (h : IsFilePath path) : path ≠ "" := by
  rintro rfl
  obtain ⟨name, hname, -⟩ := h.name
  cases hname

theorem IsFilePath.getLast?_names (h : IsFilePath path) : (Path.names path).getLast? ≠ some "" :=
  Path.getLast?_names_ne h.ne_empty h.end_eq

/-- A file is written where its path leads, unless there is a directory. -/
theorem target_eq_ok_iff :
    d.target path = .ok place ↔ IsFilePath path ∧
      d.walk (start path) (Path.names path) = .ok place ∧ d.isDirectory place = false := by
  unfold target
  by_cases hsize : Path.maxSize < path.utf8ByteSize
  · rw [if_pos hsize]
    constructor
    · nofun
    · rintro ⟨hfile, -⟩
      exact absurd hfile.size (Nat.not_le.2 hsize)
  rw [if_neg hsize]
  dsimp only
  cases hlast : ((Path.names path).filter (· ≠ "")).getLast? with
  | none =>
    constructor
    · nofun
    · rintro ⟨hfile, -⟩
      obtain ⟨name, hname, -⟩ := hfile.name
      rw [hlast] at hname
      cases hname
  | some name =>
    have hnames : (Path.names path).filter (· ≠ "") =
        ((Path.names path).filter (· ≠ "")).dropLast ++ [name] :=
      (List.dropLast_append_getLast? name hlast).symm
    have hwalk (hend : IsFilePath path) : d.walk (start path) (Path.names path) =
        d.enter (start path) ((Path.names path).filter (· ≠ "")).dropLast >>= fun p ↦
          d.walk p [name] := by
      rw [← walk_filter _ hend.getLast?_names, hnames, List.dropLast_concat, enter, ← walk_append,
        List.append_assoc, walk_append, walk_append]
      congr 1
      funext p
      exact (walk_idle rfl p name []).symm
    simp only [guard_eq_ok, bind_eq_ok, Bool.or_eq_true, decide_eq_true_eq, not_or,
      Bool.not_eq_true]
    constructor
    · rintro ⟨p, hp, ⟨⟨hdot, hup⟩, hend⟩, q, hq, hdir, hresult⟩
      cases hresult
      have hfile : IsFilePath path := ⟨Nat.not_lt.1 hsize, ⟨name, hlast, hdot, hup⟩, hend⟩
      refine ⟨hfile, ?_, hdir⟩
      rw [hwalk hfile]
      exact bind_eq_ok.2 ⟨p, hp, hq⟩
    · rintro ⟨hfile, hplace, hdir⟩
      rw [hwalk hfile] at hplace
      obtain ⟨p, hp, hq⟩ := bind_eq_ok.1 hplace
      obtain ⟨other, hother, hdot, hup⟩ := hfile.name
      rw [hlast] at hother
      cases hother
      exact ⟨p, hp, ⟨⟨hdot, hup⟩, hfile.end_eq⟩, place, hq, hdir, rfl⟩

/-- A disk on which the same places are open leads a path to the same place, if no directory is
there. -/
theorem target_of_isOpen (hopen : ∀ p, d.IsOpen p → d'.IsOpen p)
    (hdir : d'.isDirectory place = false) (h : d.target path = .ok place) :
    d'.target path = .ok place := by
  obtain ⟨hfile, hwalk, -⟩ := target_eq_ok_iff.1 h
  exact target_eq_ok_iff.2 ⟨hfile, walk_eq_ok_of_isOpen hopen hwalk, hdir⟩

/-- A path is read where it would be written. -/
theorem read_of_target {s : String} (h : d.target path = .ok place)
    (hs : d.files.get? place = some (.text s)) : d.read path = .ok s := by
  obtain ⟨hfile, hwalk, -⟩ := target_eq_ok_iff.1 h
  rw [read, if_neg hfile.ne_empty, if_neg (Nat.not_lt.2 hfile.size)]
  refine bind_eq_ok.2 ⟨place, hwalk, ?_⟩
  rw [hs]
  rfl

/-! ## Changes -/

/-- Each way of the first disk leads on in the second one, and no file of it is gone or stands where
a directory is now. -/
structure Extends (d d' : Disk) : Prop where
  isOpen : ∀ p, d.IsOpen p → d'.IsOpen p
  contains : ∀ p, d.files.contains p = true → d'.files.contains p = true
  isDirectory : ∀ p, d.files.contains p = true → d.isDirectory p = false → d'.isDirectory p = false

theorem Extends.refl (d : Disk) : d.Extends d :=
  ⟨fun _ h ↦ h, fun _ h ↦ h, fun _ _ h ↦ h⟩

theorem Extends.trans (h : d.Extends d') (h' : d'.Extends d'') : d.Extends d'' where
  isOpen p hp := h'.isOpen p (h.isOpen p hp)
  contains p hp := h'.contains p (h.contains p hp)
  isDirectory p hp hdir := h'.isDirectory p (h.contains p hp) (h.isDirectory p hp hdir)

/-- The path of a file that is there leads to the same place afterwards. -/
theorem Extends.target (h : d.Extends d') (hfile : d.files.contains place = true)
    (hplace : d.target path = .ok place) : d'.target path = .ok place :=
  target_of_isOpen h.isOpen
    (h.isDirectory place hfile (target_eq_ok_iff.1 hplace).2.2) hplace

theorem get?_files_store (content : Content) (p : List String) :
    (d.store place content).files.get? p = if p = place then some content else d.files.get? p := by
  rw [store, SortedMap.get?_insert]

/-- A file is written where no directory is. -/
theorem extends_store (hdir : d.isDirectory place = false) (content : Content) :
    d.Extends (d.store place content) := by
  constructor
  · rintro p ⟨hfile, hopen⟩
    have hne : p ≠ place := by
      rintro rfl
      rw [hopen] at hdir
      cases hdir
    refine ⟨?_, hopen⟩
    rw [SortedMap.contains, get?_files_store, if_neg hne]
    exact hfile
  · intro p hp
    rw [SortedMap.contains, get?_files_store]
    split
    · rfl
    · exact hp
  · intro p _ hp
    exact hp

/-- The second disk has further directories than the first one, but none where a file is, and the
same files. -/
structure Furnishes (d d' : Disk) : Prop where
  files : d'.files = d.files
  isDirectory : ∀ p, d.isDirectory p = true → d'.isDirectory p = true
  free : ∀ p, d.files.contains p = true → d.isDirectory p = false → d'.isDirectory p = false

theorem Furnishes.refl (d : Disk) : d.Furnishes d := ⟨rfl, fun _ h ↦ h, fun _ _ h ↦ h⟩

theorem Furnishes.trans (h : d.Furnishes d') (h' : d'.Furnishes d'') : d.Furnishes d'' where
  files := h'.files.trans h.files
  isDirectory p hp := h'.isDirectory p (h.isDirectory p hp)
  free p hp hdir := h'.free p (by rwa [h.files]) (h.free p hp hdir)

theorem Furnishes.toExtends (h : d.Furnishes d') : d.Extends d' := by
  constructor
  · rintro p ⟨hfile, hopen⟩
    refine ⟨?_, h.isDirectory p hopen⟩
    rw [h.files]
    exact hfile
  · intro p hp
    rwa [h.files]
  · exact h.free

theorem furnishes_insert (h : d.files.contains place = false) :
    d.Furnishes { d with directories := d.directories.insert place () } := by
  constructor
  · rfl
  · intro p hp
    simp only [isDirectory, SortedMap.contains, SortedMap.get?_insert] at hp ⊢
    split
    · simp
    · exact hp
  · intro p hp hdir
    have hne : p ≠ place := by
      rintro rfl
      rw [h] at hp
      cases hp
    simp only [isDirectory, SortedMap.contains, SortedMap.get?_insert, if_neg hne] at hdir ⊢
    exact hdir

theorem furnishes_of_makeDirectory (h : d.makeDirectory place names = .ok d') : d.Furnishes d' := by
  unfold makeDirectory at h
  split at h
  · cases h
  · simp only [guard_eq_ok, bind_eq_ok, Bool.or_eq_true, not_or, Bool.not_eq_true] at h
    obtain ⟨_, -, -, p, -, ⟨hfile, -⟩, h⟩ := h
    cases h
    exact furnishes_insert hfile

theorem furnishes_ensureDirectory (d : Disk) (place names : List String) :
    d.Furnishes (d.ensureDirectory place names).1 := by
  unfold ensureDirectory
  split
  · next hmade => exact furnishes_of_makeDirectory hmade
  · exact .refl d

theorem furnishes_makeDirectories (d : Disk) (place names : List String) :
    d.Furnishes (d.makeDirectories place names).1 := by
  induction names generalizing d with
  | nil => exact .refl d
  | cons name before ih =>
    unfold makeDirectories
    dsimp only
    split
    · split
      · next hmade =>
        have hbefore := ih d
        rwa [hmade] at hbefore
      · next hmade =>
        have hbefore := ih d
        rw [hmade] at hbefore
        exact hbefore.trans (furnishes_ensureDirectory _ _ _)
    · exact furnishes_ensureDirectory d place _

/-- Making the directory of a file adds directories only, whether or not it succeeds. -/
theorem furnishes_makeParent (d : Disk) (path : String) : d.Furnishes (d.makeParent path).1 := by
  unfold makeParent
  split
  · exact .refl d
  · exact furnishes_makeDirectories d _ _

/-- A text that is written is found where its path leads, and the other files are as before. -/
theorem write_eq_ok {text : String} (h : d.write path text = (d', none)) :
    ∃ place, d'.target path = .ok place ∧ d.Extends d' ∧
      ∀ p, d'.files.get? p = if p = place then some (.text text) else d.files.get? p := by
  have hmade := d.furnishes_makeParent path
  unfold write at h
  split at h
  · cases h
  · next d₁ heq =>
    rw [heq] at hmade
    split at h
    · cases h
    · next place hplace =>
      cases h
      have hdir := (target_eq_ok_iff.1 hplace).2.2
      have hextends := extends_store hdir (.text text)
      refine ⟨place, target_of_isOpen hextends.isOpen hdir hplace, hmade.toExtends.trans hextends,
        fun p ↦ ?_⟩
      rw [get?_files_store, hmade.files]

/-- A file that cannot be written has had directories made for it at most. -/
theorem furnishes_of_write_eq_error {text : String} {e : FileError}
    (h : d.write path text = (d', some e)) : d.Furnishes d' := by
  have hmade := d.furnishes_makeParent path
  unfold write at h
  split at h
  · next heq =>
    cases h
    rwa [heq] at hmade
  · next heq =>
    rw [heq] at hmade
    split at h
    · cases h
      exact hmade
    · cases h

/-- No file that is written turns a way or removes a file, whether or not it can be written. -/
theorem extends_write (d : Disk) (path text : String) : d.Extends (d.write path text).1 := by
  cases h : d.write path text with
  | mk d' error =>
    cases error with
    | none =>
      obtain ⟨-, -, hextends, -⟩ := write_eq_ok h
      exact hextends
    | some e => exact (furnishes_of_write_eq_error h).toExtends

/-- A file of the working directory or of the root can be written, as no directory has to be made
for it, and what could be written before leads to the same place afterwards. -/
theorem exists_write_eq (hparent : Path.parent path = []) (hplace : d.target path = .ok place)
    (text : String) :
    ∃ d', d.write path text = (d', none) ∧
      ∀ path' place', d.target path' = .ok place' → d'.target path' = .ok place' := by
  have hsize : ¬Path.maxSize <
      (Path.ofSteps (Path.isAbsolute path) (Path.parent path)).utf8ByteSize := by
    rw [hparent, Path.ofSteps]
    split <;> decide
  refine ⟨d.store place (.text text), ?_, fun path' place' hplace' ↦ ?_⟩
  · rw [write, makeParent, if_neg hsize, hparent]
    simp only [List.reverse_nil, makeDirectories, hplace]
  · exact target_of_isOpen (extends_store (target_eq_ok_iff.1 hplace).2.2 _).isOpen
      (target_eq_ok_iff.1 hplace').2.2 hplace'

/-! ## Rows -/

/-- There is no file at a place, or an empty one. -/
def IsBlank (d : Disk) (place : List String) : Prop :=
  d.files.get? place = none ∨ d.files.get? place = some (.text "")

/-- Where there is no database there are no rows. -/
theorem IsBlank.rowsAt (h : d.IsBlank place) : d.rowsAt place = .empty := by
  rcases h with h | h <;> rw [Disk.rowsAt, h]

theorem rowsAt_congr (h : d'.files = d.files) : d'.rowsAt place = d.rowsAt place := by
  rw [rowsAt, rowsAt, h]

/-- A database that is stored has its rows, and those of the other databases stay. -/
theorem rowsAt_store (rows : Warehouse) (p : List String) :
    (d.store place (.database rows)).rowsAt p = if p = place then rows else d.rowsAt p := by
  unfold rowsAt
  rw [get?_files_store]
  by_cases hp : p = place
  · rw [if_pos hp, if_pos hp]
  · rw [if_neg hp, if_neg hp]

end Disk

end OracleMarkets
