import Mathlib.Data.List.Permutation
import Mathlib.Data.List.TakeWhile
import SchemaTidy.Proofs.Files.Volume
import SchemaTidy.Proofs.Text.Order

/-!
# Discovered files

Discovery gives exactly the files that the given paths stand for: a path to a file stands for itself,
and a path to a directory for the files below it that are reached through real directories which are
neither excluded nor skipped. They are given in increasing order, so neither the order in which
directories are listed nor the order of the given paths shows in the result.
-/

namespace SchemaTidy

theorem PathText.pieces_ne_nil (path : Text) : pieces path ≠ [] := by
  cases path with
  | nil => simp [pieces]
  | cons c cs =>
      unfold pieces
      split
      · simp
      · split <;> simp

/-! ## Volumes that are listed in another order -/

namespace Volume

mutual

/-- In every directory the entries have distinct names. -/
def DistinctNames : Volume → Prop
  | .file _ => True
  | .link _ => True
  | .directory entries => (entries.map Prod.fst).Nodup ∧ AllDistinct entries

def AllDistinct : List (Text × Volume) → Prop
  | [] => True
  | (_, v) :: rest => v.DistinctNames ∧ AllDistinct rest

end

/-- The same volume, with the entries of its directories listed in another order. -/
inductive Relisted : Volume → Volume → Prop where
  | refl (v : Volume) : Relisted v v
  | order {entries entries' : List (Text × Volume)} (h : entries.Perm entries') :
      Relisted (.directory entries) (.directory entries')
  | inside {before after : List (Text × Volume)} {name : Text} {v w : Volume} (h : Relisted v w) :
      Relisted (.directory (before ++ (name, v) :: after)) (.directory (before ++ (name, w) :: after))
  | trans {u v w : Volume} (huv : Relisted u v) (hvw : Relisted v w) : Relisted u w

theorem allDistinct_iff {entries : List (Text × Volume)} :
    AllDistinct entries ↔ ∀ e ∈ entries, e.2.DistinctNames := by
  induction entries with
  | nil => simp [AllDistinct]
  | cons e entries ih =>
      obtain ⟨name, v⟩ := e
      rw [AllDistinct, ih, List.forall_mem_cons]

theorem DistinctNames.at? {root v : Volume} {location : List Text} (h : root.DistinctNames)
    (hv : root.at? location = some v) : v.DistinctNames := by
  induction location generalizing root with
  | nil =>
      obtain rfl := Option.some.inj hv
      exact h
  | cons name location ih =>
      cases root with
      | file content => cases hv
      | link target => cases hv
      | directory entries =>
          obtain ⟨w, hfind, hv⟩ := Option.bind_eq_some_iff.mp hv
          obtain ⟨e, he, rfl⟩ := Option.map_eq_some_iff.mp hfind
          exact ih (allDistinct_iff.mp h.2 e (List.mem_of_find?_eq_some he)) hv

theorem find?_eq_some_iff {entries : List (Text × Volume)} (h : (entries.map Prod.fst).Nodup)
    {name : Text} {v : Volume} : find? entries name = some v ↔ (name, v) ∈ entries := by
  induction entries with
  | nil => simp [find?]
  | cons e entries ih =>
      obtain ⟨n, w⟩ := e
      obtain ⟨hfresh, hrest⟩ := List.nodup_cons.mp h
      by_cases hn : n = name
      · subst hn
        have hnone : (n, v) ∉ entries := fun hmem => hfresh (List.mem_map.mpr ⟨_, hmem, rfl⟩)
        simp [find?, hnone, eq_comm]
      · have ih := ih hrest
        simp only [find?] at ih ⊢
        rw [List.find?_cons_of_neg (by simpa using hn), ih]
        simp [Ne.symm hn]

theorem at?_entry {root : Volume} {location : List Text} {entries : List (Text × Volume)}
    (h : root.at? location = some (.directory entries)) (name : Text) :
    root.at? (location ++ [name]) = find? entries name := by
  rw [at?_append, h, Option.bind_some, at?]
  cases find? entries name <;> rfl

theorem at?_of_mem {root : Volume} {location : List Text} {entries : List (Text × Volume)}
    (h : root.at? location = some (.directory entries)) (hnames : (entries.map Prod.fst).Nodup) :
    ∀ e ∈ entries, root.at? (location ++ [e.1]) = some e.2 := by
  intro e he
  rw [at?_entry h]
  exact (find?_eq_some_iff hnames).mpr he

theorem node?_cons (entries : List (Text × Volume)) (name : Text) (location : List Text) :
    (directory entries).node? (name :: location) =
      (find? entries name).bind (·.node? location) := by
  simp only [node?, at?]
  cases find? entries name <;> rfl

namespace Relisted

theorem distinctNames {v w : Volume} (h : Relisted v w) (hv : v.DistinctNames) :
    w.DistinctNames := by
  induction h with
  | refl v => exact hv
  | order hperm =>
      rw [DistinctNames, allDistinct_iff] at hv ⊢
      obtain ⟨hnames, hbelow⟩ := hv
      exact ⟨(hperm.map Prod.fst).nodup_iff.mp hnames, fun e he => hbelow e (hperm.mem_iff.mpr he)⟩
  | inside h ih =>
      rw [DistinctNames, allDistinct_iff] at hv ⊢
      obtain ⟨hnames, hbelow⟩ := hv
      apply And.intro (by simpa using hnames)
      intro e he
      rcases List.mem_append.mp he with he | he
      · exact hbelow e (List.mem_append_left _ he)
      rcases List.mem_cons.mp he with rfl | he
      · exact ih (hbelow _ (List.mem_append_right _ (List.mem_cons_self ..)))
      · exact hbelow e (List.mem_append_right _ (List.mem_cons_of_mem _ he))
  | trans _ _ huv hvw => exact hvw (huv hv)

theorem node?_eq {v w : Volume} (h : Relisted v w) (hv : v.DistinctNames) : w.node? = v.node? := by
  induction h with
  | refl v => rfl
  | @order entries entries' hperm =>
      have hnames := hv.1
      have hnames' := (hperm.map Prod.fst).nodup_iff.mp hnames
      have hfind (name : Text) : find? entries' name = find? entries name := by
        apply Option.ext
        intro v
        rw [find?_eq_some_iff hnames, find?_eq_some_iff hnames', hperm.mem_iff]
      funext location
      cases location with
      | nil => rfl
      | cons name location => rw [node?_cons, node?_cons, hfind]
  | @inside before after name v w h ih =>
      have hinner : v.DistinctNames :=
        allDistinct_iff.mp hv.2 (name, v) (List.mem_append_right _ (List.mem_cons_self ..))
      funext location
      cases location with
      | nil => rfl
      | cons n location =>
          rw [node?_cons, node?_cons]
          simp only [find?, List.find?_append, List.find?_cons]
          cases before.find? (·.1 == n) with
          | some e => rfl
          | none =>
              simp only [Option.none_or]
              split
              · exact congrFun (ih hinner) location
              · rfl
  | trans huv _ ihuv ihvw => rw [ihvw (huv.distinctNames hv), ihuv hv]

end Relisted

/-- A link that leads to a directory, through other links or not. -/
def IsDirectoryLink (root : Volume) (location : List Text) : Prop :=
  (∃ target, root.node? location = some (.link target)) ∧
    ∃ target, root.follow maxLinks [] location = .ok target ∧ root.node? target = some .directory

/-- An entry that is neither a directory nor a link to one. -/
def IsLeaf (root : Volume) (location : List Text) : Prop :=
  (∃ node, root.node? location = some node ∧ node ≠ .directory) ∧ ¬ root.IsDirectoryLink location

section Congr

variable {v w : Volume} (h : w.node? = v.node?)
include h

theorem shape?_congr : w.shape? = v.shape? := by
  funext location
  rw [shape?, shape?, h]

theorem isLeaf_congr (location : List Text) : w.IsLeaf location ↔ v.IsLeaf location := by
  simp only [IsLeaf, IsDirectoryLink, h, follow_congr (shape?_congr h)]

end Congr

theorem leadsToDirectory_iff {root : Volume} {location : List Text} :
    root.leadsToDirectory location = true ↔ ∃ target,
      root.follow maxLinks [] location = .ok target ∧ root.node? target = some .directory := by
  unfold leadsToDirectory
  cases root.follow maxLinks [] location with
  | error e => simp
  | ok target =>
      simp only [Except.ok.injEq, exists_eq_left', node?]
      cases root.at? target with
      | none => simp
      | some v => cases v <;> simp [node]

/-! ## Where paths lead -/

/-- A location with a file or a directory. -/
def IsPlain (root : Volume) (location : List Text) : Prop :=
  ∃ node, root.node? location = some node ∧ ∀ target, node ≠ .link target

theorem isPlain_of_directory {root : Volume} {location : List Text} {entries : List (Text × Volume)}
    (h : root.at? location = some (.directory entries)) : root.IsPlain location :=
  ⟨.directory, by rw [node?, h]; rfl, by simp⟩

theorem isPlain_above {root v : Volume} {location : List Text} {name : Text}
    (h : root.at? (location ++ [name]) = some v) : root.IsPlain location := by
  rw [at?_append] at h
  obtain ⟨w, hw, hname⟩ := Option.bind_eq_some_iff.mp h
  cases w with
  | file content => cases hname
  | link target => cases hname
  | directory entries => exact isPlain_of_directory hw

/-- A path does not end at a link. -/
theorem isPlain_follow {root : Volume} {links : Nat} {here pieces location : List Text}
    (hhere : pieces = [] → root.IsPlain here) (h : root.follow links here pieces = .ok location) :
    root.IsPlain location := by
  fun_induction follow root links here pieces with
  | case1 links here =>
      obtain rfl := Except.ok.inj h
      exact hhere rfl
  | case2 links here piece rest entries hat _ ih => exact ih (fun _ => isPlain_of_directory hat) h
  | case3 => cases h
  | case4 links here piece rest entries hat _ _ hne ih =>
      apply ih _ h
      intro _
      have hne : here ≠ [] := by simpa using hne
      rw [← List.dropLast_append_getLast hne] at hat
      exact isPlain_above hat
  | case5 => cases h
  | case6 => cases h
  | case7 => cases h
  | case8 here piece rest entries hat _ _ target _ links _ ih =>
      apply ih _ h
      intro hnil
      exact absurd (List.append_eq_nil_iff.mp hnil).1 (PathText.pieces_ne_nil target)
  | case9 links here piece rest entries hat _ _ v hplain hfind ih =>
      apply ih _ h
      intro _
      refine ⟨v.node, ?_, ?_⟩
      · rw [node?, at?_append, hat, Option.bind_some, at?, hfind]
        rfl
      · intro target hlink
        cases v with
        | file content => cases hlink
        | link t => exact hplain t rfl
        | directory entries => cases hlink
  | case10 => cases h

theorem isPlain_locate {root : Volume} {path : Text} {location : List Text}
    (h : root.locate path = .ok location) : root.IsPlain location := by
  unfold locate at h
  split at h
  · cases h
  · exact isPlain_follow (fun hnil => absurd hnil (PathText.pieces_ne_nil path)) h

end Volume

/-! ## The files below a directory -/

namespace PathText

/-- The path of what the names lead to from a directory. -/
def below (path : Text) (names : List Text) : Text := names.foldl join path

/-- A name that ends with a dot and an extension, with something in front of the dot. -/
def HasExtension (name extension : Text) : Prop :=
  ∃ stem, stem ≠ [] ∧ name = stem ++ '.' :: extension ∧ '.' ∉ extension

theorem extension?_eq_some_iff {name extension : Text} :
    extension? name = some extension ↔ HasExtension name extension := by
  have hsplit := List.takeWhile_append_dropWhile (p := (· != '.')) (l := name.reverse)
  constructor
  · intro h
    unfold extension? at h
    simp only at h
    split at h
    · rename_i hlong
      obtain rfl := Option.some.inj h
      have hlength := congrArg List.length hsplit
      simp only [List.length_append, List.length_reverse] at hlength hlong
      cases hrest : name.reverse.dropWhile (· != '.') with
      | nil =>
          rw [hrest, List.length_nil] at hlength
          omega
      | cons c stem =>
          have hc := List.head?_dropWhile_not (· != '.') name.reverse
          rw [hrest] at hc hsplit hlength
          obtain rfl : c = '.' := by simpa using hc
          refine ⟨stem.reverse, ?_, ?_, ?_⟩
          · rintro hnil
            rw [List.reverse_eq_nil_iff.mp hnil, List.length_singleton] at hlength
            omega
          · have hname := congrArg List.reverse hsplit
            rw [List.reverse_reverse, List.reverse_append, List.reverse_cons, List.append_assoc] at hname
            exact hname.symm
          · intro hdot
            have htaken := List.mem_takeWhile_imp (List.mem_reverse.mp hdot)
            cases htaken
    · cases h
  · rintro ⟨stem, hstem, rfl, hdot⟩
    have hkept : ∀ c ∈ extension.reverse, (c != '.') = true := by
      simpa only [bne_iff_ne, List.mem_reverse] using List.forall_mem_ne'.mpr hdot
    have htail : ((stem ++ '.' :: extension).reverse.takeWhile (· != '.')).reverse = extension := by
      rw [List.reverse_append, List.reverse_cons, List.append_assoc, List.singleton_append,
        List.takeWhile_append_of_pos hkept, List.takeWhile_cons_of_neg (by simp), List.append_nil,
        List.reverse_reverse]
    have hpos := List.length_pos_iff.mpr hstem
    unfold extension?
    simp only [htail]
    rw [if_pos]
    simp only [List.length_append, List.length_cons]
    omega

end PathText

namespace Discovery

/-- Whether a file with this name is taken from a directory: it has one of the extensions, in any case
of letters. -/
def Takes (d : Discovery) (name : Text) : Prop :=
  ∃ e, PathText.HasExtension name e ∧ ∃ x ∈ d.extensions, Text.lowerCase x = Text.lowerCase e

theorem accepts_iff {d : Discovery} {name : Text} : d.accepts name = true ↔ d.Takes name := by
  unfold accepts
  cases h : PathText.extension? name with
  | none =>
      simp only [Bool.false_eq_true, false_iff]
      rintro ⟨e, he, -⟩
      rw [PathText.extension?_eq_some_iff.mpr he] at h
      cases h
  | some e =>
      simp only [List.any_eq_true, beq_iff_eq]
      constructor
      · intro hx
        exact ⟨e, PathText.extension?_eq_some_iff.mp h, hx⟩
      · rintro ⟨e', he, hx⟩
        rw [PathText.extension?_eq_some_iff.mpr he] at h
        obtain rfl := Option.some.inj h
        exact hx

section Tree

variable (d : Discovery) (root : Volume)

/-- The names lead from the directory at a location, whose path is given, to a file that is taken from
it. Every directory on the way is a real one, and is neither excluded nor skipped. -/
structure Finds (path : Text) (location names : List Text) : Prop where
  enters : ∀ above name rest, names = above ++ name :: rest → rest ≠ [] →
    root.node? (location ++ (above ++ [name])) = some .directory ∧
      d.excludes (PathText.below path (above ++ [name])) = false ∧ name ∉ skippedDirectories
  leaf : root.IsLeaf (location ++ names)
  takes : ∃ above name, names = above ++ [name] ∧ d.Takes name
  keeps : d.excludes (PathText.below path names) = false

/-- What a given path stands for: itself if it leads to a file, which may have any extension, and if it
leads to a directory, the files that are found below. The directory itself may have any name. -/
inductive Selects (path : Text) : Text → Prop where
  | named {location : List Text} {content : Option Text} (hpath : root.locate path = .ok location)
      (hfile : root.node? location = some (.file content)) (hkeeps : d.excludes path = false) :
      Selects path path
  | found {location names : List Text} (hpath : root.locate path = .ok location)
      (hdirectory : root.node? location = some .directory) (hfinds : d.Finds root path location names) :
      Selects path (PathText.below path names)

end Tree

variable {d : Discovery} {root : Volume} {path : Text} {location : List Text}

theorem finds_singleton {name : Text} : d.Finds root path location [name] ↔
    root.IsLeaf (location ++ [name]) ∧ d.Takes name ∧ d.excludes (PathText.join path name) = false := by
  constructor
  · intro h
    obtain ⟨above, last, hnames, htakes⟩ := h.takes
    have hlast : name = last := by
      have hsame := congrArg List.getLast? hnames
      simpa using hsame
    exact ⟨h.leaf, hlast ▸ htakes, h.keeps⟩
  · rintro ⟨hleaf, htakes, hkeeps⟩
    refine ⟨?_, hleaf, ⟨[], name, rfl, htakes⟩, hkeeps⟩
    intro above n rest hnames hrest
    have hlength := congrArg List.length hnames
    have hpos := List.length_pos_iff.mpr hrest
    simp only [List.length_cons, List.length_nil, List.length_append] at hlength
    omega

/-- A way down begins with a step into a directory. -/
theorem finds_cons {name next : Text} {names : List Text} :
    d.Finds root path location (name :: next :: names) ↔
      (root.node? (location ++ [name]) = some .directory ∧
        d.excludes (PathText.join path name) = false ∧ name ∉ skippedDirectories) ∧
      d.Finds root (PathText.join path name) (location ++ [name]) (next :: names) := by
  have hlocation (l : List Text) : (location ++ [name]) ++ l = location ++ (name :: l) := by
    rw [List.append_assoc, List.singleton_append]
  constructor
  · intro h
    refine ⟨h.enters [] name (next :: names) rfl (by simp), ?_, ?_, ?_, h.keeps⟩
    · intro above n rest hnames hrest
      rw [hlocation]
      exact h.enters (name :: above) n rest (by rw [hnames]; rfl) hrest
    · rw [hlocation]
      exact h.leaf
    · obtain ⟨above, last, hnames, htakes⟩ := h.takes
      cases above with
      | nil => cases hnames
      | cons n above => exact ⟨above, last, (List.cons.inj hnames).2, htakes⟩
  · rintro ⟨hfirst, h⟩
    have hleaf := h.leaf
    rw [hlocation] at hleaf
    refine ⟨?_, hleaf, ?_, h.keeps⟩
    · intro above n rest hnames hrest
      cases above with
      | nil =>
          obtain ⟨rfl, -⟩ := List.cons.inj hnames
          exact hfirst
      | cons m above =>
          obtain ⟨rfl, htail⟩ := List.cons.inj hnames
          have hstep := h.enters above n rest htail hrest
          rw [hlocation] at hstep
          exact hstep
    · obtain ⟨above, last, hnames, htakes⟩ := h.takes
      exact ⟨name :: above, last, by rw [hnames]; rfl, htakes⟩

theorem Finds.exists_entry {entries : List (Text × Volume)} {name : Text} {names : List Text}
    (h : d.Finds root path location (name :: names))
    (hdirectory : root.at? location = some (.directory entries))
    (hnames : (entries.map Prod.fst).Nodup) : ∃ v, (name, v) ∈ entries := by
  obtain ⟨node, hnode⟩ : ∃ node, root.node? (location ++ [name]) = some node := by
    cases names with
    | nil =>
        obtain ⟨node, hnode, -⟩ := h.leaf.1
        exact ⟨node, hnode⟩
    | cons next names => exact ⟨_, (finds_cons.mp h).1.1⟩
  rw [Volume.node?, Volume.at?_entry hdirectory] at hnode
  obtain ⟨v, hv, -⟩ := Option.map_eq_some_iff.mp hnode
  exact ⟨v, (Volume.find?_eq_some_iff hnames).mp hv⟩

section Walk

variable {f name : Text}

/-- What a walk takes of an entry that is neither a directory nor a link to one. -/
theorem mem_visit_leaf (hleaf : root.IsLeaf (location ++ [name])) :
    f ∈ d.visit (PathText.join path name) name .file ↔
      ∃ names, d.Finds root path location (name :: names) ∧ f = PathText.below path (name :: names) := by
  have hvisit : f ∈ d.visit (PathText.join path name) name .file ↔
      (d.Takes name ∧ d.excludes (PathText.join path name) = false) ∧ f = PathText.join path name := by
    rw [visit, ← accepts_iff]
    cases d.excludes (PathText.join path name) <;> cases d.accepts name <;> simp
  rw [hvisit]
  constructor
  · rintro ⟨htakes, hf⟩
    exact ⟨[], finds_singleton.mpr ⟨hleaf, htakes⟩, hf⟩
  · rintro ⟨names, hfinds, hf⟩
    cases names with
    | nil => exact ⟨(finds_singleton.mp hfinds).2, hf⟩
    | cons next names =>
        obtain ⟨node, hnode, hne⟩ := hleaf.1
        rw [(finds_cons.mp hfinds).1.1] at hnode
        exact absurd (Option.some.inj hnode).symm hne

theorem mem_visit_file {content : Option Text}
    (hv : root.at? (location ++ [name]) = some (.file content)) :
    f ∈ d.visit (PathText.join path name) name (root.toEntry (location ++ [name]) (.file content)) ↔
      ∃ names, d.Finds root path location (name :: names) ∧ f = PathText.below path (name :: names) := by
  have hnode : root.node? (location ++ [name]) = some (.file content) := by rw [Volume.node?, hv]; rfl
  rw [Volume.toEntry]
  apply mem_visit_leaf
  refine ⟨⟨_, hnode, by simp⟩, ?_⟩
  rintro ⟨⟨target, hlink⟩, -⟩
  rw [hnode] at hlink
  cases hlink

theorem mem_visit_link {target : Text} (hv : root.at? (location ++ [name]) = some (.link target)) :
    f ∈ d.visit (PathText.join path name) name (root.toEntry (location ++ [name]) (.link target)) ↔
      ∃ names, d.Finds root path location (name :: names) ∧ f = PathText.below path (name :: names) := by
  have hnode : root.node? (location ++ [name]) = some (.link target) := by rw [Volume.node?, hv]; rfl
  rw [Volume.toEntry]
  split
  · rename_i hleads
    have hlink : root.IsDirectoryLink (location ++ [name]) :=
      ⟨⟨target, hnode⟩, Volume.leadsToDirectory_iff.mp hleads⟩
    rw [visit]
    simp only [List.not_mem_nil, false_iff]
    rintro ⟨names, hfinds, -⟩
    cases names with
    | nil => exact (finds_singleton.mp hfinds).1.2 hlink
    | cons next names =>
        have hdirectory := (finds_cons.mp hfinds).1.1
        rw [hnode] at hdirectory
        cases hdirectory
  · rename_i hleads
    apply mem_visit_leaf
    refine ⟨⟨_, hnode, by simp⟩, ?_⟩
    rintro ⟨-, hlink⟩
    exact hleads (Volume.leadsToDirectory_iff.mpr hlink)

/-- A walk enters a directory that is neither excluded nor skipped. -/
theorem mem_visit_directory {entries : List (Text × Volume)}
    (hv : root.at? (location ++ [name]) = some (.directory entries))
    (hnames : (entries.map Prod.fst).Nodup)
    (hwalk : f ∈ d.walk (PathText.join path name) (root.toEntries (location ++ [name]) entries) ↔
      ∃ e ∈ entries, ∃ names, d.Finds root (PathText.join path name) (location ++ [name]) (e.1 :: names) ∧
        f = PathText.below (PathText.join path name) (e.1 :: names)) :
    f ∈ d.visit (PathText.join path name) name
        (root.toEntry (location ++ [name]) (.directory entries)) ↔
      ∃ names, d.Finds root path location (name :: names) ∧ f = PathText.below path (name :: names) := by
  have hnode : root.node? (location ++ [name]) = some .directory := by rw [Volume.node?, hv]; rfl
  have hvisit : f ∈ d.visit (PathText.join path name) name
        (root.toEntry (location ++ [name]) (.directory entries)) ↔
      (d.excludes (PathText.join path name) = false ∧ name ∉ skippedDirectories) ∧
        f ∈ d.walk (PathText.join path name) (root.toEntries (location ++ [name]) entries) := by
    rw [Volume.toEntry, visit]
    cases d.excludes (PathText.join path name) <;> by_cases hskipped : name ∈ skippedDirectories <;>
      simp [hskipped]
  rw [hvisit, hwalk]
  constructor
  · rintro ⟨hkeeps, e, -, names, hfinds, hf⟩
    exact ⟨e.1 :: names, finds_cons.mpr ⟨⟨hnode, hkeeps⟩, hfinds⟩, hf⟩
  · rintro ⟨names, hfinds, hf⟩
    cases names with
    | nil =>
        obtain ⟨node, hleaf, hne⟩ := (finds_singleton.mp hfinds).1.1
        rw [hnode] at hleaf
        exact absurd (Option.some.inj hleaf).symm hne
    | cons next names =>
        obtain ⟨⟨-, hkeeps⟩, hfinds⟩ := finds_cons.mp hfinds
        obtain ⟨w, hw⟩ := hfinds.exists_entry hv hnames
        exact ⟨hkeeps, (next, w), hw, names, hfinds, hf⟩

mutual

theorem mem_visit {path name : Text} {location : List Text} : ∀ v : Volume,
    root.at? (location ++ [name]) = some v → v.DistinctNames →
    (f ∈ d.visit (PathText.join path name) name (root.toEntry (location ++ [name]) v) ↔
      ∃ names, d.Finds root path location (name :: names) ∧ f = PathText.below path (name :: names))
  | .file _, hv, _ => mem_visit_file hv
  | .link _, hv, _ => mem_visit_link hv
  | .directory entries, hv, hdistinct =>
      mem_visit_directory hv hdistinct.1
        (mem_walk entries (Volume.at?_of_mem hv hdistinct.1) hdistinct.2)

theorem mem_walk {path : Text} {location : List Text} : ∀ entries : List (Text × Volume),
    (∀ e ∈ entries, root.at? (location ++ [e.1]) = some e.2) → Volume.AllDistinct entries →
    (f ∈ d.walk path (root.toEntries location entries) ↔
      ∃ e ∈ entries, ∃ names, d.Finds root path location (e.1 :: names) ∧
        f = PathText.below path (e.1 :: names))
  | [], _, _ => by simp [Volume.toEntries, walk]
  | (name, v) :: rest, hentries, hdistinct => by
      obtain ⟨hv, hrest⟩ := List.forall_mem_cons.mp hentries
      rw [Volume.toEntries, walk, List.mem_append, mem_visit v hv hdistinct.1,
        mem_walk rest hrest hdistinct.2]
      simp only [List.mem_cons, exists_eq_or_imp]

end

theorem mem_walk_directory {entries : List (Text × Volume)}
    (hdirectory : root.at? location = some (.directory entries))
    (hdistinct : (Volume.directory entries).DistinctNames) :
    f ∈ d.walk path (root.toEntries location entries) ↔
      ∃ names, d.Finds root path location names ∧ f = PathText.below path names := by
  rw [mem_walk entries (Volume.at?_of_mem hdirectory hdistinct.1) hdistinct.2]
  constructor
  · rintro ⟨e, -, names, hfinds⟩
    exact ⟨e.1 :: names, hfinds⟩
  · rintro ⟨names, hfinds, hf⟩
    cases names with
    | nil =>
        obtain ⟨above, name, hnil, -⟩ := hfinds.takes
        simp at hnil
    | cons name names =>
        obtain ⟨w, hw⟩ := hfinds.exists_entry hdirectory hdistinct.1
        exact ⟨(name, w), hw, names, hfinds, hf⟩

end Walk

/-! ## Discovery -/

section Discover

variable {paths : List Text} (hdistinct : root.DistinctNames)

include hdistinct in
theorem mem_given {v : Volume} {f : Text} (hpath : root.locate path = .ok location)
    (hv : root.at? location = some v) :
    f ∈ d.given path (root.toEntry location v) ↔ d.Selects root path f := by
  have hnode : root.node? location = some v.node := by rw [Volume.node?, hv]; rfl
  have hlocation {location' : List Text} (h : root.locate path = .ok location') :
      location' = location := by
    rw [hpath] at h
    exact (Except.ok.inj h).symm
  cases v with
  | file content =>
      have hgiven : f ∈ d.given path (root.toEntry location (.file content)) ↔
          d.excludes path = false ∧ f = path := by
        simp only [Volume.toEntry, given]
        cases d.excludes path <;> simp
      rw [hgiven]
      constructor
      · rintro ⟨hkeeps, rfl⟩
        exact .named hpath hnode hkeeps
      · intro h
        cases h with
        | named _ _ hkeeps => exact ⟨hkeeps, rfl⟩
        | found hpath' hdirectory _ =>
            rw [hlocation hpath', hnode] at hdirectory
            cases hdirectory
  | link target =>
      obtain ⟨node, hplain, hne⟩ := Volume.isPlain_locate hpath
      rw [hnode] at hplain
      exact absurd (Option.some.inj hplain).symm (hne target)
  | directory entries =>
      rw [Volume.toEntry, given, mem_walk_directory hv (hdistinct.at? hv)]
      constructor
      · rintro ⟨names, hfinds, rfl⟩
        exact .found hpath hnode hfinds
      · intro h
        cases h with
        | named hpath' hfile _ =>
            rw [hlocation hpath', hnode] at hfile
            cases hfile
        | @found _ names hpath' _ hfinds =>
            rw [hlocation hpath'] at hfinds
            exact ⟨names, hfinds, rfl⟩

include hdistinct in
theorem collect_paths (hpaths : ∀ p ∈ paths, ∃ location, root.locate p = .ok location) :
    ∃ files, d.collect (paths.map fun p => (p, root.lookup p)) = .ok files ∧
      ∀ f, f ∈ files ↔ ∃ p ∈ paths, d.Selects root p f := by
  induction paths with
  | nil => exact ⟨[], rfl, by simp⟩
  | cons p paths ih =>
      obtain ⟨⟨location, hpath⟩, hrest⟩ := List.forall_mem_cons.mp hpaths
      obtain ⟨files, hfiles, hmem⟩ := ih hrest
      obtain ⟨node, hnode, -⟩ := Volume.isPlain_locate hpath
      obtain ⟨v, hv, -⟩ := Option.map_eq_some_iff.mp hnode
      have hlookup : root.lookup p = some (root.toEntry location v) := by
        rw [Volume.lookup, hpath]
        simp only [hv, Option.map_some]
      refine ⟨d.given p (root.toEntry location v) ++ files, ?_, ?_⟩
      · rw [List.map_cons, hlookup, collect, hfiles]
        rfl
      · intro f
        rw [List.mem_append, mem_given hdistinct hpath hv, hmem]
        simp only [List.mem_cons, exists_eq_or_imp]

theorem selects_congr {root' : Volume} (h : root'.node? = root.node?) {f : Text} :
    d.Selects root' path f ↔ d.Selects root path f := by
  have hlocate (p : Text) : root'.locate p = root.locate p :=
    Volume.locate_congr (Volume.shape?_congr h) p
  have hfinds (p : Text) (l names : List Text) : d.Finds root' p l names ↔ d.Finds root p l names := by
    constructor
    · rintro ⟨henters, hleaf, htakes, hkeeps⟩
      rw [h] at henters
      exact ⟨henters, (Volume.isLeaf_congr h _).mp hleaf, htakes, hkeeps⟩
    · rintro ⟨henters, hleaf, htakes, hkeeps⟩
      rw [← h] at henters
      exact ⟨henters, (Volume.isLeaf_congr h _).mpr hleaf, htakes, hkeeps⟩
  constructor
  · intro hselects
    cases hselects with
    | named hpath hfile hkeeps => exact .named (hlocate path ▸ hpath) (h ▸ hfile) hkeeps
    | found hpath hdirectory hfound =>
        exact .found (hlocate path ▸ hpath) (h ▸ hdirectory) ((hfinds _ _ _).mp hfound)
  · intro hselects
    cases hselects with
    | named hpath hfile hkeeps => exact .named (hlocate path ▸ hpath) (h ▸ hfile) hkeeps
    | found hpath hdirectory hfound =>
        exact .found (hlocate path ▸ hpath) (h ▸ hdirectory) ((hfinds _ _ _).mpr hfound)

/-- The files that the given paths stand for, each once and in increasing order. -/
structure Discovers (d : Discovery) (root : Volume) (paths files : List Text) : Prop where
  increasing : files.Pairwise PathText.Precedes
  selected : ∀ f ∈ files, ∃ p ∈ paths, d.Selects root p f
  complete : ∀ p ∈ paths, ∀ f, d.Selects root p f → ∃ g ∈ files, PathText.steps g = PathText.steps f

theorem discovers_sort {files : List Text}
    (hmem : ∀ f, f ∈ files ↔ ∃ p ∈ paths, d.Selects root p f) :
    d.Discovers root paths (PathText.sort files) := by
  refine ⟨PathText.pairwise_sort files, ?_, ?_⟩
  · intro f hf
    exact (hmem f).mp (PathText.mem_of_mem_sort hf)
  · intro p hp f hf
    have hstep : PathText.steps f ∈ files.map PathText.steps :=
      List.mem_map_of_mem ((hmem f).mpr ⟨p, hp, hf⟩)
    exact List.mem_map.mp (PathText.mem_steps_sort.mpr hstep)

theorem Discovers.mem_steps {files : List Text} (h : d.Discovers root paths files)
    (s : List PathStep) :
    s ∈ files.map PathText.steps ↔ ∃ f, (∃ p ∈ paths, d.Selects root p f) ∧ PathText.steps f = s := by
  constructor
  · intro hs
    obtain ⟨f, hf, rfl⟩ := List.mem_map.mp hs
    exact ⟨f, h.selected f hf, rfl⟩
  · rintro ⟨f, ⟨p, hp, hf⟩, rfl⟩
    exact List.mem_map.mpr (h.complete p hp f hf)

/-- The files that some paths stand for are determined, up to the spelling of their paths. -/
theorem Discovers.map_steps_eq {root' : Volume} {paths' files files' : List Text}
    (h : d.Discovers root paths files) (h' : d.Discovers root' paths' files')
    (hselects : ∀ f, (∃ p ∈ paths', d.Selects root' p f) ↔ ∃ p ∈ paths, d.Selects root p f) :
    files'.map PathText.steps = files.map PathText.steps := by
  apply PathText.map_steps_eq h'.increasing h.increasing
  intro s
  rw [h.mem_steps, h'.mem_steps]
  simp only [hselects]

/-- Discovery gives exactly the files that the given paths stand for, in increasing order. The order
in which directories are listed and the order of the given paths make no difference: the same paths are
discovered, and if no path has two spellings among them, in the same spelling. -/
theorem discover_exact (hdistinct : root.DistinctNames)
    (hpaths : ∀ p ∈ paths, ∃ location, root.locate p = .ok location) :
    ∃ files, d.discover (paths.map fun p => (p, root.lookup p)) = .ok files ∧
      d.Discovers root paths files ∧
      ∀ root' paths', Volume.Relisted root root' → paths.Perm paths' →
        ∃ files', d.discover (paths'.map fun p => (p, root'.lookup p)) = .ok files' ∧
          files'.map PathText.steps = files.map PathText.steps ∧
          ((∀ p ∈ paths, ∀ q ∈ paths, ∀ f g, d.Selects root p f → d.Selects root q g →
            PathText.steps f = PathText.steps g → f = g) → files' = files) := by
  obtain ⟨files, hfiles, hmem⟩ := collect_paths (d := d) hdistinct hpaths
  have hdiscovers := discovers_sort hmem
  refine ⟨PathText.sort files, by rw [discover, hfiles]; rfl, hdiscovers, ?_⟩
  intro root' paths' hrelisted hperm
  have hnode := hrelisted.node?_eq hdistinct
  have hpaths' : ∀ p ∈ paths', ∃ location, root'.locate p = .ok location := by
    intro p hp
    rw [Volume.locate_congr (Volume.shape?_congr hnode)]
    exact hpaths p (hperm.mem_iff.mpr hp)
  obtain ⟨files', hfiles', hmem'⟩ := collect_paths (d := d) (hrelisted.distinctNames hdistinct) hpaths'
  have hdiscovers' := discovers_sort hmem'
  have hselects (f : Text) :
      (∃ p ∈ paths', d.Selects root' p f) ↔ ∃ p ∈ paths, d.Selects root p f := by
    simp only [hperm.mem_iff, selects_congr hnode]
  have hsteps := hdiscovers.map_steps_eq hdiscovers' hselects
  refine ⟨PathText.sort files', by rw [discover, hfiles']; rfl, hsteps, ?_⟩
  intro hspelling
  apply List.ext_getElem (by simpa using congrArg List.length hsteps)
  intro i hi hi'
  have hstep : PathText.steps (PathText.sort files')[i] = PathText.steps (PathText.sort files)[i] := by
    have hat := congrArg (·[i]?) hsteps
    simpa [hi, hi'] using hat
  obtain ⟨p, hp, hf⟩ := hdiscovers.selected _ (List.getElem_mem hi')
  obtain ⟨q, hq, hg⟩ := (hselects _).mp (hdiscovers'.selected _ (List.getElem_mem hi))
  exact hspelling q hq p hp _ _ hg hf hstep

end Discover

/-- Files that are taken and files that are not: in a directory that is skipped, in one that is
excluded, behind a link to a directory, and with another extension. -/
def sampleEntries : List (Text × Volume) := [
  ("app".toList, .directory [
    ("up".toList, .link "..".toList),
    ("build".toList, .directory [("x.py".toList, .file none)]),
    ("notes.md".toList, .file none),
    ("sub".toList, .directory [("c.pyi".toList, .file none)]),
    ("gen".toList, .directory [("y.py".toList, .file none)]),
    ("alias.py".toList, .link "a.py".toList),
    ("a.py".toList, .file none),
    ("B.PY".toList, .file none)]),
  ("run".toList, .file none)]

/-- A path to a file without an extension and two that overlap, one of them with a second slash. -/
def samplePaths : List Text := ["run", "app//", "app/sub"].map String.toList

/-- The usual extensions, and one directory excluded. -/
def sampleDiscovery : Discovery where
  excludes path := path == "app//gen".toList

theorem discover_exact_samplePaths :
    (Volume.directory sampleEntries).DistinctNames ∧
      (∀ p ∈ samplePaths, ∃ location, (Volume.directory sampleEntries).locate p = .ok location) ∧
      ∃ files, sampleDiscovery.discover
          (samplePaths.map fun p => (p, (Volume.directory sampleEntries).lookup p)) = .ok files ∧
        files = ["app//B.PY", "app//a.py", "app//alias.py", "app//sub/c.pyi", "run"].map String.toList ∧
        sampleDiscovery.Discovers (.directory sampleEntries) samplePaths files ∧
        ∃ files', sampleDiscovery.discover
            (samplePaths.reverse.map fun p =>
              (p, (Volume.directory sampleEntries.reverse).lookup p)) = .ok files' ∧
          files'.map PathText.steps = files.map PathText.steps := by
  have hdistinct : (Volume.directory sampleEntries).DistinctNames := by
    simp [sampleEntries, Volume.DistinctNames, Volume.AllDistinct]
  have hrun : (Volume.directory sampleEntries).locate "run".toList = .ok ["run".toList] := by cbv
  have happ : (Volume.directory sampleEntries).locate "app//".toList = .ok ["app".toList] := by cbv
  have hsub : (Volume.directory sampleEntries).locate "app/sub".toList =
      .ok ["app".toList, "sub".toList] := by cbv
  have hpaths : ∀ p ∈ samplePaths,
      ∃ location, (Volume.directory sampleEntries).locate p = .ok location := by
    simp only [samplePaths, List.map_cons, List.map_nil, List.forall_mem_cons]
    exact ⟨⟨_, hrun⟩, ⟨_, happ⟩, ⟨_, hsub⟩, by simp⟩
  have hlookup : (samplePaths.map fun p => (p, (Volume.directory sampleEntries).lookup p)) =
      [("run".toList, some .file),
        ("app//".toList, some (.directory [
          ("up".toList, .directoryLink),
          ("build".toList, .directory [("x.py".toList, .file)]),
          ("notes.md".toList, .file),
          ("sub".toList, .directory [("c.pyi".toList, .file)]),
          ("gen".toList, .directory [("y.py".toList, .file)]),
          ("alias.py".toList, .file),
          ("a.py".toList, .file),
          ("B.PY".toList, .file)])),
        ("app/sub".toList, some (.directory [("c.pyi".toList, .file)]))] := by cbv
  obtain ⟨files, hfiles, hdiscovers, hsame⟩ :=
    discover_exact (d := sampleDiscovery) hdistinct hpaths
  obtain ⟨files', hfiles', hsteps, -⟩ :=
    hsame _ _ (.order (List.reverse_perm sampleEntries).symm) (List.reverse_perm samplePaths).symm
  refine ⟨hdistinct, hpaths, files, hfiles, ?_, hdiscovers, files', hfiles', hsteps⟩
  rw [hlookup] at hfiles
  have hread := congrArg Except.toOption hfiles
  exact Option.some.inj (hread.symm.trans (by decide +kernel))

end Discovery

end SchemaTidy
