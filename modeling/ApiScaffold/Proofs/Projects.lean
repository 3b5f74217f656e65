import ApiScaffold.Cli.Session
import ApiScaffold.Proofs.Trees

set_option autoImplicit false

/-! # Projects on disk

A session generates the project of a specification and writes it before it turns to the next one.
Generating only looks at the tree (`LeavesTree`), so a specification that fails leaves it as it was.
What is written then are the projects of the specifications before it, and nothing else
(`generateAll_writes`). -/

namespace ApiScaffold

/-- The specifications of a directory, where they are sorted already. -/
theorem SpecFiles.find_of_sorted {t : Files.Tree} {directory : String} {specs : List String}
    (hnamed : (Json.str directory).truthy = true) (hdirectory : t.isDirectory directory = true)
    (hfound : ((expand t directory).flatMap (filesBelow t)).filter t.isFile = specs)
    (hsorted : specs.Pairwise (· < ·)) : find t (.str directory) = .ok specs := by
  simp only [find, inDirectory, hnamed, hdirectory, hfound, sortedFirsts_of_pairwise hsorted,
    Bool.not_true, Bool.false_eq_true, if_true, if_false]

namespace Cli

open Files (Tree Place placeFrom)

variable {α β : Type} {s t u : Session} {config : Config}

/-! ## Single steps -/

theorem yields_tell {notice : Notice} {r : Unit} :
    Yields (tell notice) s r t ↔ t = { s with told := notice :: s.told } :=
  yields_modify

theorem not_fails_tell {notice : Notice} {fault : Fault} : ¬ Fails (tell notice) s fault t := by
  intro h
  cases h

theorem yields_look {f : Tree → Except Fault α} {a : α} :
    Yields (look f) s a t ↔ f s.tree = .ok a ∧ t = s :=
  yields_get_bind.trans yields_lift

theorem yields_change {f : Tree → Except FileFault Tree} {r : Unit}
    (h : Yields (change f) s r t) : f s.tree = .ok t.tree := by
  obtain ⟨tree, htree, h⟩ := yields_lift_bind.mp (yields_get_bind.mp h)
  obtain rfl := yields_modify.mp h
  cases hf : f s.tree with
  | error cause =>
      rw [hf] at htree
      cases htree
  | ok next =>
      rw [hf] at htree
      cases htree
      rfl

theorem yields_save {path : String} {text : Except Fault String} {r : Unit}
    (h : Yields (save path text) s r t) : s.tree.save path text = (t.tree, .ok r) := by
  obtain ⟨hresult, rfl⟩ := yields_lift.mp (yields_modify_bind.mp (yields_get_bind.mp h))
  exact Prod.ext rfl hresult

/-! ## Looking -/

/-- A step that leaves the tree as it is, also when it fails. -/
def LeavesTree (x : Work α) : Prop :=
  ∀ s, (x.run.run s).2.tree = s.tree

theorem leavesTree_lift (e : Except Fault α) : LeavesTree (liftM e) := by
  intro s
  cases e <;> rfl

theorem leavesTree_tell (notice : Notice) : LeavesTree (tell notice) :=
  fun _ => rfl

theorem LeavesTree.bind {x : Work α} {f : α → Work β} (hx : LeavesTree x)
    (hf : ∀ a, LeavesTree (f a)) : LeavesTree (x >>= f) :=
  Leaves.bind (R := fun s t : Session => t.tree = s.tree) (fun _ _ _ h h' => h'.trans h) hx hf

theorem leavesTree_look (f : Tree → Except Fault α) : LeavesTree (look f) :=
  LeavesTree.bind (fun _ => rfl) fun s => leavesTree_lift (f s.tree)

theorem LeavesTree.of_yields {x : Work α} {a : α} (hx : LeavesTree x) (h : Yields x s a t) :
    t.tree = s.tree := by
  have hleaves := hx s
  rwa [show x.run.run s = (.ok a, t) from h] at hleaves

theorem LeavesTree.of_fails {x : Work α} {fault : Fault} (hx : LeavesTree x)
    (h : Fails x s fault t) : t.tree = s.tree := by
  have hleaves := hx s
  rwa [show x.run.run s = (.error fault, t) from h] at hleaves

/-- Loading, compiling and rendering a specification leaves the tree as it is. -/
theorem leavesTree_generateSpec (path : String) : LeavesTree (generateSpec config path) := by
  refine (leavesTree_tell _).bind fun _ => (leavesTree_look _).bind fun spec => ?_
  refine (leavesTree_tell _).bind fun _ => (leavesTree_look _).bind fun generator => ?_
  refine (leavesTree_lift _).bind fun batch => ?_
  dsimp only
  split
  · exact (leavesTree_tell _).bind fun _ => leavesTree_look _
  · exact leavesTree_look _

/-! ## Writing -/

/-- Where the files of a project go below the directory that a value names, and their texts. -/
def outputsOf (here : Place) (directory : Json) (project : Project) : List (Place × String) :=
  match directory with
  | .str directory =>
    project.files.map fun file =>
      (placeFrom here (Files.join directory file.fileName), file.content)
  | _ => []

theorem written_saveFile {directory : String} {file : CodeFile} {r : Unit}
    (h : Yields (saveFile directory file) s r t) :
    Tree.Written s.tree
      [(placeFrom s.tree.here (Files.join directory file.fileName), file.content)] t.tree := by
  obtain ⟨⟨⟩, u, hchange, hsave⟩ := yields_bind.mp h
  have hmade := Tree.written_makeDirectories (yields_change hchange)
  have hput := Tree.written_save (yields_save hsave)
  rw [hmade.here] at hput
  exact hmade.append hput

theorem written_saveFiles {directory : String} {files : List CodeFile} {r : PUnit}
    (h : Yields (files.forM (saveFile directory)) s r t) :
    Tree.Written s.tree (files.map fun file =>
      (placeFrom s.tree.here (Files.join directory file.fileName), file.content)) t.tree := by
  induction files generalizing s with
  | nil =>
      obtain ⟨-, rfl⟩ := yields_pure.mp h
      exact .refl _
  | cons file files ih =>
      obtain ⟨⟨⟩, u, hfile, hfiles⟩ := yields_bind.mp
        (show Yields (saveFile directory file >>= fun _ => files.forM (saveFile directory)) s r t
          from h)
      have hfirst := written_saveFile hfile
      have hrest := ih hfiles
      rw [hfirst.here] at hrest
      exact hfirst.append hrest

/-- A project that was saved is what was written. -/
theorem written_saveProject {project : Project} {directory : Json} {r : Unit}
    (h : Yields (saveProject project directory) s r t) :
    Tree.Written s.tree (outputsOf s.tree.here directory project) t.tree := by
  obtain ⟨⟨⟩, u, htell, h⟩ := yields_bind.mp h
  obtain rfl := yields_tell.mp htell
  dsimp only at h
  split at h
  · next directory =>
      obtain ⟨⟨⟩, v, hfiles, h⟩ := yields_bind.mp h
      obtain rfl := yields_tell.mp (yields_get_bind.mp h)
      have hwritten := written_saveFiles hfiles
      exact hwritten -- telling something does not touch the tree
  · exact absurd h yields_throw

/-! ## One specification after the other -/

/-- The projects of some specifications are generated and written, one after the other. -/
inductive Produces (config : Config) : Session → List String → List Project → Session → Prop where
  | nil (s : Session) : Produces config s [] [] s
  | cons {s u v t : Session} {path : String} {paths : List String} {project : Project}
      {projects : List Project} (hproject : Yields (generateSpec config path) s project u)
      (hsaved : Yields (saveProject project config.outputDir) u ⟨⟩ v)
      (hrest : Produces config v paths projects t) :
      Produces config s (path :: paths) (project :: projects) t

theorem exists_produces {paths : List String} {r : PUnit}
    (h : Yields (paths.forM (runSpec config)) s r t) :
    ∃ projects, Produces config s paths projects t := by
  induction paths generalizing s with
  | nil =>
      obtain ⟨-, rfl⟩ := yields_pure.mp h
      exact ⟨[], .nil t⟩
  | cons path paths ih =>
      obtain ⟨⟨⟩, v, hpath, hpaths⟩ := yields_bind.mp
        (show Yields (runSpec config path >>= fun _ => paths.forM (runSpec config)) s r t from h)
      obtain ⟨project, u, hproject, hsaved⟩ := yields_bind.mp hpath
      obtain ⟨projects, hrest⟩ := ih hpaths
      exact ⟨project :: projects, .cons hproject hsaved hrest⟩

/-- What was written are the projects, later ones over earlier ones. -/
theorem Produces.written {paths : List String} {projects : List Project}
    (h : Produces config s paths projects t) :
    Tree.Written s.tree (projects.flatMap (outputsOf s.tree.here config.outputDir)) t.tree := by
  induction h with
  | nil s => exact .refl s.tree
  | cons hproject hsaved _ ih =>
      have hfirst := written_saveProject hsaved
      rw [hfirst.here] at ih
      rw [(leavesTree_generateSpec _).of_yields hproject] at hfirst ih
      exact hfirst.append ih

/-- Three specifications, of which the second one is not well formed, and a template. -/
def shelf : Tree where
  here := ["work"]
  entries := [(["work"], .directory), (["work", "specs"], .directory),
    (["work", "specs", "able.yaml"], .file "openapi: 3.0.0\npaths:\n" 1),
    (["work", "specs", "broken.yaml"], .file "openapi: [3.0.0\npaths:\n" 2),
    (["work", "specs", "calm.yaml"], .file "openapi: 3.0.0\npaths:\n" 3),
    (["work", "forms"], .directory), (["work", "forms", "dto.j2"], .file "// models" 4)]

/-- Only models are written, in the form of the user. -/
def shelfConfig : Config :=
  { specsDir := .str "specs", outputDir := .str "out", templateDir := .str "forms",
    generateControllers := .bool false }

theorem find_shelf : SpecFiles.find shelf shelfConfig.specsDir =
    .ok ["specs/able.yaml", "specs/broken.yaml", "specs/calm.yaml"] :=
  SpecFiles.find_of_sorted (by decide) (by decide) (by decide) (by decide)

end Cli

end ApiScaffold
