import SchemaTidy.Files.Volume

/-!
# Writing to a volume

A write replaces the text of one file. It moves nothing, so paths lead where they led before; it leaves
every other file alone; and two writes to different files can be done in either order.
-/

namespace SchemaTidy

namespace Volume

/-- What stands at a location, apart from what lies below it. -/
inductive Node where
  | file (content : Option Text)
  | link (target : Text)
  | directory

def node : Volume → Node
  | file content => .file content
  | link target => .link target
  | directory _ => .directory

/-- A node without the content of a file. -/
def Node.shape : Node → Node
  | file _ => .file none
  | link target => .link target
  | directory => .directory

def node? (v : Volume) (location : List Text) : Option Node := (v.at? location).map node

/-- The node at a location without the content of a file. -/
def shape? (v : Volume) (location : List Text) : Option Node :=
  (v.node? location).map Node.shape

def IsFile (v : Volume) (location : List Text) : Prop :=
  ∃ content, v.at? location = some (.file content)

def commit (v : Volume) (write : List Text × Text) : Volume :=
  setAt (.file (some write.2)) write.1 v

/-! ## Entries -/

theorem find?_map (f : Volume → Volume) (name : Text) (entries : List (Text × Volume)) (q : Text) :
    find? (entries.map fun (n, v) => if n == name then (n, f v) else (n, v)) q =
      if q = name then (find? entries q).map f else find? entries q := by
  induction entries with
  | nil => simp [find?]
  | cons entry entries ih =>
      obtain ⟨n, v⟩ := entry
      simp only [find?] at ih
      by_cases hn : n = name
      · subst hn
        by_cases hq : n = q
        · simp [find?, hq]
        · simpa [find?, hq, Ne.symm hq] using ih
      · by_cases hq : n = q
        · subst hq
          simp [find?, hn]
        · simpa [find?, hq, hn] using ih

theorem at?_append (v : Volume) (l l' : List Text) :
    v.at? (l ++ l') = (v.at? l).bind (·.at? l') := by
  induction l generalizing v with
  | nil => rfl
  | cons name l ih =>
      cases v with
      | file content => rfl
      | link target => rfl
      | directory entries =>
          simp only [List.cons_append, at?]
          cases find? entries name with
          | none => rfl
          | some w => exact ih w

theorem IsFile.eq_of_le {v : Volume} {l l' : List Text} (h : v.IsFile l) (h' : v.IsFile l')
    (hle : l <+: l') : l = l' := by
  obtain ⟨rest, rfl⟩ := hle
  obtain ⟨content, hl⟩ := h
  obtain ⟨content', hl'⟩ := h'
  rw [at?_append, hl] at hl'
  cases rest with
  | nil => simp
  | cons name rest => cases hl'

/-! ## Replacing a node -/

theorem at?_setAt_self {v w : Volume} {l : List Text} (h : v.at? l = some w) (new : Volume) :
    (setAt new l v).at? l = some new := by
  induction l generalizing v with
  | nil => rfl
  | cons name l ih =>
      cases v with
      | file content => cases h
      | link target => cases h
      | directory entries =>
          obtain ⟨inner, hinner, hl⟩ := Option.bind_eq_some_iff.mp h
          simp only [setAt, at?]
          rw [find?_map, if_pos rfl, hinner]
          exact ih hl

theorem node?_setAt {l l' : List Text} (h : ¬ l <+: l') (new v : Volume) :
    (setAt new l v).node? l' = v.node? l' := by
  induction l generalizing l' v with
  | nil => exact absurd (List.nil_prefix) h
  | cons name l ih =>
      cases v with
      | file content => rfl
      | link target => rfl
      | directory entries =>
          cases l' with
          | nil => rfl
          | cons name' l' =>
              simp only [setAt, node?, at?]
              rw [find?_map]
              by_cases hname : name' = name
              · subst hname
                rw [if_pos rfl]
                cases find? entries name' with
                | none => rfl
                | some inner => exact ih (fun hl => h ((List.prefix_cons_inj name').mpr hl)) inner
              · rw [if_neg hname]

/-- Nodes at locations none of which is below the other can be replaced in either order. -/
theorem setAt_comm {l l' : List Text} (h : ¬ l <+: l') (h' : ¬ l' <+: l) (a b v : Volume) :
    setAt a l (setAt b l' v) = setAt b l' (setAt a l v) := by
  induction l generalizing l' v with
  | nil => exact absurd (List.nil_prefix) h
  | cons name l ih =>
      cases l' with
      | nil => exact absurd (List.nil_prefix) h'
      | cons name' l' =>
          cases v with
          | file content => rfl
          | link target => rfl
          | directory entries =>
              simp only [setAt, List.map_map, Volume.directory.injEq]
              refine List.map_congr_left fun entry _ => ?_
              obtain ⟨n, v⟩ := entry
              simp only [Function.comp_apply]
              by_cases hn : n = name
              · subst hn
                by_cases hn' : n = name'
                · subst hn'
                  have hcomm := ih (fun hl => h ((List.prefix_cons_inj n).mpr hl))
                    (fun hl => h' ((List.prefix_cons_inj n).mpr hl)) v
                  simp [hcomm]
                · simp [hn']
              · by_cases hn' : n = name'
                · subst hn'
                  simp [hn]
                · simp [hn, hn']

/-! ## Writing to a file -/

section Commit

variable {v : Volume} {w : List Text × Text}

theorem at?_commit_self (h : v.IsFile w.1) : (v.commit w).at? w.1 = some (.file (some w.2)) := by
  obtain ⟨content, hcontent⟩ := h
  exact at?_setAt_self hcontent _

theorem node?_commit (h : v.IsFile w.1) {l : List Text} (hl : l ≠ w.1) :
    (v.commit w).node? l = v.node? l := by
  by_cases hle : w.1 <+: l
  · obtain ⟨rest, rfl⟩ := hle
    have hrest : rest ≠ [] := by
      rintro rfl
      exact hl (List.append_nil _)
    obtain ⟨content, hcontent⟩ := h
    obtain ⟨name, rest, rfl⟩ := List.exists_cons_of_ne_nil hrest
    rw [node?, node?, at?_append, at?_append, at?_commit_self ⟨content, hcontent⟩, hcontent]
    rfl
  · exact node?_setAt hle _ v

theorem shape?_commit (h : v.IsFile w.1) : (v.commit w).shape? = v.shape? := by
  funext l
  by_cases hl : l = w.1
  · subst hl
    obtain ⟨content, hcontent⟩ := h
    simp [shape?, node?, at?_commit_self ⟨content, hcontent⟩, hcontent, node, Node.shape]
  · rw [shape?, shape?, node?_commit h hl]

theorem commit_comm {u : List Text × Text} (hw : v.IsFile w.1) (hu : v.IsFile u.1) (h : w.1 ≠ u.1)
    (x : Volume) : (x.commit w).commit u = (x.commit u).commit w :=
  setAt_comm (fun hle => h (hu.eq_of_le hw hle).symm)
    (fun hle => h (hw.eq_of_le hu hle)) _ _ x

theorem isFile_iff_shape? {l : List Text} : v.IsFile l ↔ v.shape? l = some (.file none) := by
  rw [IsFile, shape?, node?]
  cases v.at? l with
  | none => simp
  | some w => cases w <;> simp [node, Node.shape]

end Commit

/-! ## Following paths -/

theorem shape?_cons_of_directory {v : Volume} {here : List Text} {entries : List (Text × Volume)}
    (h : v.at? here = some (.directory entries)) (piece : Text) :
    v.shape? (here ++ [piece]) = (find? entries piece).map (·.node.shape) := by
  rw [shape?, node?, at?_append, h, Option.map_map]
  simp only [Option.bind_some, at?]
  cases find? entries piece <;> rfl

/-- A step along a path depends on the shape of the volume only. -/
theorem follow_cons (v : Volume) (links : Nat) (here : List Text) (piece : Text)
    (rest : List Text) :
    v.follow links here (piece :: rest) =
      match v.shape? here with
      | some .directory =>
          if piece.isEmpty || piece == ['.'] then v.follow links here rest
          else if piece == ['.', '.'] then
            if here.isEmpty then .error .notFound else v.follow links here.dropLast rest
          else
            match v.shape? (here ++ [piece]) with
            | none => .error .notFound
            | some (.link target) =>
                match links with
                | 0 => .error .tooManyLinks
                | links + 1 =>
                    if target.isEmpty then .error .notFound
                    else v.follow links (start here target) (PathText.pieces target ++ rest)
            | some _ => v.follow links (here ++ [piece]) rest
      | _ => .error .notDirectory := by
  rw [follow]
  cases hhere : v.at? here with
  | none => simp [shape?, node?, hhere]
  | some w =>
      cases w with
      | file content => simp [shape?, node?, hhere, node, Node.shape]
      | link target => simp [shape?, node?, hhere, node, Node.shape]
      | directory entries =>
          have hshape : v.shape? here = some .directory := by
            simp [shape?, node?, hhere, node, Node.shape]
          rw [hshape, shape?_cons_of_directory hhere]
          simp only
          cases find? entries piece with
          | none => rfl
          | some inner => cases inner <;> rfl

theorem follow_congr {v v' : Volume} (h : v.shape? = v'.shape?) (links : Nat)
    (here pieces : List Text) : v.follow links here pieces = v'.follow links here pieces := by
  -- Links are counted down; between two links the pieces get fewer.
  induction links generalizing here pieces with
  | zero =>
      induction pieces generalizing here with
      | nil => rw [follow, follow]
      | cons piece rest ih =>
          rw [follow_cons, follow_cons, h]
          simp only [ih]
  | succ links outer =>
      induction pieces generalizing here with
      | nil => rw [follow, follow]
      | cons piece rest ih =>
          rw [follow_cons, follow_cons, h]
          simp only [ih, outer]

theorem locate_congr {v v' : Volume} (h : v.shape? = v'.shape?) (path : Text) :
    v.locate path = v'.locate path := by
  rw [locate, locate, follow_congr h]

/-! ## Reading and writing by path -/

section Paths

variable {root : Volume} {path : Text} {location : List Text}

theorem read_eq_ok {text : Text} (h : root.read path = .ok text) :
    ∃ location, root.locate path = .ok location ∧ root.at? location = some (.file (some text)) := by
  unfold read at h
  split at h
  · cases h
  · rename_i location hlocation
    split at h
    · rename_i text' hfile
      cases h
      exact ⟨location, hlocation, hfile⟩
    · cases h
    · cases h
    · cases h

theorem read_of_locate (h : root.locate path = .ok location) :
    root.read path =
      match root.node? location with
      | some (.file (some text)) => .ok text
      | some (.file none) => .error .invalidText
      | some .directory => .error .isDirectory
      | _ => .error .notFound := by
  rw [read, h, node?]
  simp only
  cases root.at? location with
  | none => rfl
  | some v =>
      cases v with
      | file content => cases content <;> rfl
      | link target => rfl
      | directory entries => rfl

theorem write_of_isFile (h : root.locate path = .ok location) (hfile : root.IsFile location)
    (text : Text) : root.write path text = .ok (root.commit (location, text)) := by
  obtain ⟨content, hcontent⟩ := hfile
  rw [write, h]
  simp only [hcontent]
  rfl

end Paths

/-! ## A sequence of writes -/

section Writes

variable {root : Volume} {writes : List (List Text × Text)}

theorem shape?_foldl_commit (h : ∀ w ∈ writes, root.IsFile w.1) :
    (writes.foldl commit root).shape? = root.shape? := by
  induction writes generalizing root with
  | nil => rfl
  | cons w writes ih =>
      obtain ⟨hw, hwrites⟩ := List.forall_mem_cons.mp h
      have hshape := shape?_commit hw
      rw [List.foldl_cons, ih fun u hu => ?_, hshape]
      rw [isFile_iff_shape?, hshape, ← isFile_iff_shape?]
      exact hwrites u hu

theorem node?_foldl_commit (h : ∀ w ∈ writes, root.IsFile w.1) {location : List Text}
    (hlocation : ∀ w ∈ writes, w.1 ≠ location) :
    (writes.foldl commit root).node? location = root.node? location := by
  induction writes generalizing root with
  | nil => rfl
  | cons w writes ih =>
      obtain ⟨hw, hwrites⟩ := List.forall_mem_cons.mp h
      obtain ⟨hne, hrest⟩ := List.forall_mem_cons.mp hlocation
      rw [List.foldl_cons, ih (fun u hu => ?_) hrest, node?_commit hw (Ne.symm hne)]
      rw [isFile_iff_shape?, shape?_commit hw, ← isFile_iff_shape?]
      exact hwrites u hu

/-- The text of a write is there if no other write goes to its file. -/
theorem node?_foldl_commit_mem (h : ∀ w ∈ writes, root.IsFile w.1)
    (hnodup : (writes.map Prod.fst).Nodup) {w : List Text × Text} (hw : w ∈ writes) :
    (writes.foldl commit root).node? w.1 = some (.file (some w.2)) := by
  induction writes generalizing root with
  | nil => cases hw
  | cons u writes ih =>
      obtain ⟨hu, hwrites⟩ := List.forall_mem_cons.mp h
      obtain ⟨hfresh, hnodup⟩ := List.nodup_cons.mp hnodup
      have hfiles : ∀ x ∈ writes, (root.commit u).IsFile x.1 := by
        intro x hx
        rw [isFile_iff_shape?, shape?_commit hu, ← isFile_iff_shape?]
        exact hwrites x hx
      rw [List.foldl_cons]
      rcases List.mem_cons.mp hw with rfl | hw
      · rw [node?_foldl_commit hfiles, node?, at?_commit_self hu]
        · rfl
        · intro x hx hxw
          exact hfresh (hxw ▸ List.mem_map_of_mem hx)
      · exact ih hfiles hnodup hw

end Writes

end Volume

end SchemaTidy
