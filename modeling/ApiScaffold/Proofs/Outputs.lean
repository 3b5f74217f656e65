import ApiScaffold.Proofs.Pointers
import ApiScaffold.Proofs.Projects

set_option autoImplicit false

/-! # Where projects are written

The names of the files of a project are made from the name of its resource, and that is the name of
the specification without directories, extension and mark. So two specifications write to different
files if their resources have different names, and to the same files otherwise, wherever they are
(`outputs_disjoint_iff`). -/

namespace ApiScaffold

/-! ## Names of specifications -/

namespace Text

theorem toList_slash : "/".toList = ['/'] := by decide

theorem finishesWith_iff {back text : String} :
    finishesWith back text = true ↔ back.toList <:+ text.toList :=
  List.isSuffixOf_iff_suffix

theorem finishesWith_append {back text front : String} (h : finishesWith back text = true) :
    finishesWith back (front ++ text) = true := by
  rw [finishesWith_iff] at h ⊢
  rw [String.toList_append]
  exact h.trans (List.suffix_append _ _)

end Text

namespace Naming

variable {path front back : List Char}

theorem baseName_of_notMem (h : '/' ∉ path) : baseName path = path := by
  rw [baseName, Text.cut_of_notMem h]
  rfl

theorem baseName_append_cons (h : '/' ∉ back) : baseName (front ++ '/' :: back) = back := by
  rw [baseName, Text.getLast?_cut_append h]
  rfl

theorem slash_notMem_baseName (path : List Char) : '/' ∉ baseName path := by
  by_cases hslash : '/' ∈ path
  · obtain ⟨front, back, rfl, hback⟩ := Text.exists_last hslash
    rwa [baseName_append_cons hback]
  · rwa [baseName_of_notMem hslash]

/-- What follows a path without a slash belongs to its last name. -/
theorem baseName_append (h : '/' ∉ back) : baseName (path ++ back) = baseName path ++ back := by
  by_cases hslash : '/' ∈ path
  · obtain ⟨front, last, rfl, hlast⟩ := Text.exists_last hslash
    have hmore : '/' ∉ last ++ back := by simp [hlast, h]
    rw [List.append_assoc, List.cons_append, baseName_append_cons hmore, baseName_append_cons hlast]
  · have hall : '/' ∉ path ++ back := by simp [hslash, h]
    rw [baseName_of_notMem hall, baseName_of_notMem hslash]

/-- What an extension ends with is no other extension. -/
theorem isSuffixOf_extension_iff {e ext : String} (he : e ∈ specExtensions) (hext : ext ∈ specExtensions)
    (stem : List Char) : e.toList.isSuffixOf (stem ++ ext.toList) = true ↔ e = ext := by
  have hdiffer : ∀ e ∈ specExtensions, ∀ ext ∈ specExtensions,
      e.toList.isSuffixOf ext.toList = true → e = ext := by
    decide
  rw [List.isSuffixOf_iff_suffix]
  constructor
  · intro h
    rcases List.suffix_or_suffix_of_suffix h (List.suffix_append stem ext.toList) with h | h
    · exact hdiffer e he ext hext (List.isSuffixOf_iff_suffix.mpr h)
    · exact (hdiffer ext hext e he (List.isSuffixOf_iff_suffix.mpr h)).symm
  · rintro rfl
    exact List.suffix_append stem e.toList

/-- The extension of a specification is what is dropped. -/
theorem dropExtension_append {ext : String} (hext : ext ∈ specExtensions) (stem : List Char) :
    dropExtension (stem ++ ext.toList) = stem := by
  have hlower : ∀ ext ∈ specExtensions, ext.toList.map Char.toLower = ext.toList := by decide
  rw [dropExtension, List.map_append, hlower ext hext]
  split
  · next e he =>
      have hends : e.toList.isSuffixOf (stem.map Char.toLower ++ ext.toList) = true := by
        simpa using List.find?_some he
      obtain rfl : e = ext := (isSuffixOf_extension_iff (List.mem_of_find?_eq_some he) hext _).mp hends
      simp
  · next hnone =>
      exact absurd ((isSuffixOf_extension_iff hext hext _).mpr rfl) (List.find?_eq_none.mp hnone ext hext)

theorem lastPart_eq_baseName (path : String) :
    Files.lastPart path = String.ofList (baseName path.toList) := by
  rw [Files.lastPart, Files.parts, Text.pieces, Text.toList_slash, baseName, List.getLast?_map]
  cases (Text.cut ['/'] path.toList).getLast? <;> rfl

/-- The last name of a path with an extension is the name of the resource, with a mark or without,
and the extension. -/
theorem lastPart_eq {path front ext : String} (hext : ext ∈ specExtensions)
    (hpath : path = front ++ ext) :
    Files.lastPart path = resourceName path ++ ".openapi" ++ ext ∨
      Files.lastPart path = resourceName path ++ ext ∧
        Text.finishesWith ".openapi" (resourceName path) = false := by
  have hslash : ∀ ext ∈ specExtensions, '/' ∉ ext.toList := by decide
  subst hpath
  have hbase : baseName (front ++ ext).toList = baseName front.toList ++ ext.toList := by
    rw [String.toList_append, baseName_append (hslash ext hext)]
  rw [lastPart_eq_baseName, resourceName, hbase, dropExtension_append hext]
  cases hmark : Text.dropBack? ".openapi".toList (baseName front.toList) with
  | none =>
      refine Or.inr ⟨by simp, ?_⟩
      have hno : ¬ ".openapi".toList <:+ baseName front.toList := by
        rintro ⟨stem, hstem⟩
        rw [Text.dropBack?_eq_some_iff.mpr hstem.symm] at hmark
        cases hmark
      rw [← Bool.not_eq_true, Text.finishesWith_iff]
      simpa using hno
  | some stem =>
      left
      rw [Text.dropBack?_eq_some_iff.mp hmark, Option.getD_some, String.ofList_append,
        String.ofList_append, String.ofList_toList, String.ofList_toList]

theorem slash_notMem_resourceName (path : String) : '/' ∉ (resourceName path).toList := by
  have hname : '/' ∉ dropExtension (baseName path.toList) := by
    intro hmem
    unfold dropExtension at hmem
    split at hmem
    · exact slash_notMem_baseName _ (List.mem_of_mem_take hmem)
    · exact slash_notMem_baseName _ hmem
  rw [resourceName, String.toList_ofList]
  cases hmark : Text.dropBack? ".openapi".toList (dropExtension (baseName path.toList)) with
  | none => exact hname
  | some stem =>
      rw [Text.dropBack?_eq_some_iff.mp hmark] at hname
      exact fun hmem => hname (List.mem_append_left _ hmem)

end Naming

/-! ## Names of files -/

namespace Files

theorem isAbsolute_append {front back : String} (hfront : front ≠ "") (h : '/' ∉ front.toList) :
    isAbsolute (front ++ back) = false := by
  cases hchars : front.toList with
  | nil => exact absurd (String.toList_eq_nil_iff.mp hchars) hfront
  | cons c rest =>
      have hc : '/' ≠ c := by
        rintro rfl
        exact h (hchars ▸ List.mem_cons_self)
      simp [isAbsolute, Text.beginsWith, Text.toList_slash, hchars, List.isPrefixOf, hc]

/-- Relative paths are told apart below every directory. -/
theorem join_left_cancel {directory a b : String} (ha : isAbsolute a = false)
    (hb : isAbsolute b = false) (h : join directory a = join directory b) : a = b := by
  simp only [join, ha, hb, Bool.false_eq_true, if_false] at h
  split at h
  · exact (String.append_right_inj _).mp h
  · exact (String.append_right_inj _).mp h

end Files

namespace Generator

/-- The name of the file of a kind of code for a resource, without directories. -/
def plainName (resource kind : String) : String :=
  resource ++ "." ++ kind ++ ".ts"

/-- The name of the file of a kind of code for a resource. -/
def nameOf (resource kind : String) : String :=
  Files.join resource (plainName resource kind)

/-- The kinds of code that a configuration asks for. -/
def kinds (config : Config) : List String :=
  (if config.generateDtos.truthy then ["dto"] else []) ++
    (if config.generateControllers.truthy then ["controller.base"] else []) ++
    (if config.generateServices.truthy then ["service"] else [])

theorem slash_notMem_kinds {config : Config} : ∀ kind ∈ kinds config, '/' ∉ kind.toList := by
  have hall : ∀ kind ∈ ["dto", "controller.base", "service"], '/' ∉ kind.toList := by decide
  intro kind hkind
  refine hall kind ?_
  simp only [kinds, List.mem_append] at hkind
  rcases hkind with (hkind | hkind) | hkind <;> split at hkind <;> simp_all

variable {r r' kind kind' : String}

theorem slash_notMem_plainName (hr : '/' ∉ r.toList) (hkind : '/' ∉ kind.toList) :
    '/' ∉ (plainName r kind).toList := by
  simp [plainName, hr, hkind]

theorem isAbsolute_plainName (hr : '/' ∉ r.toList) :
    Files.isAbsolute (plainName r kind) = false := by
  rw [plainName, String.append_assoc]
  exact Files.isAbsolute_append (by simp) (by simp [hr])

/-- A file lies in a directory with the name of the resource, if that is not empty. -/
theorem nameOf_eq (hr : '/' ∉ r.toList) :
    nameOf r kind = if r = "" then plainName r kind else r ++ ("/" ++ plainName r kind) := by
  have hend : Text.finishesWith "/" r = false := by
    rw [← Bool.not_eq_true, Text.finishesWith_iff, Text.toList_slash]
    exact fun hsuffix => hr (hsuffix.subset (List.mem_singleton_self _))
  rw [nameOf, Files.join, isAbsolute_plainName hr, hend]
  by_cases hempty : r = "" <;> simp [hempty, String.append_assoc]

/-- The name of a file begins with the name of the resource. -/
theorem resource_eq_of_nameOf (hr : '/' ∉ r.toList) (hr' : '/' ∉ r'.toList)
    (hkind : '/' ∉ kind.toList) (hkind' : '/' ∉ kind'.toList)
    (h : nameOf r kind = nameOf r' kind') : r = r' := by
  have hplain := slash_notMem_plainName hr hkind
  have hplain' := slash_notMem_plainName hr' hkind'
  rw [nameOf_eq hr, nameOf_eq hr'] at h
  split_ifs at h with hempty hempty' hempty'
  · rw [hempty, hempty']
  · rw [h] at hplain
    exact absurd hplain (by simp)
  · rw [← h] at hplain'
    exact absurd hplain' (by simp)
  · have hchars : r.toList ++ '/' :: (plainName r kind).toList =
        r'.toList ++ '/' :: (plainName r' kind').toList := by
      simpa using congrArg String.toList h
    exact String.toList_inj.mp ((List.append_cons_inj_of_notMem hr hplain).mp hchars).1

theorem isAbsolute_nameOf (hr : '/' ∉ r.toList) : Files.isAbsolute (nameOf r kind) = false := by
  rw [nameOf_eq hr]
  split_ifs with hempty
  · exact isAbsolute_plainName hr
  · exact Files.isAbsolute_append hempty hr

/-! ## Files of a project -/

variable {g : Generator} {t : Files.Tree} {batch : Batch} {project : Project}

/-- A batch has a controller and a service if the configuration asks for them. -/
theorem isSome_of_build (h : g.build = .ok batch) :
    batch.controller.isSome = g.config.generateControllers.truthy ∧
      batch.service.isSome = g.config.generateServices.truthy := by
  obtain ⟨_, -, h⟩ := bind_eq_ok.mp h
  obtain ⟨_, -, h⟩ := bind_eq_ok.mp h
  obtain ⟨_, -, h⟩ := bind_eq_ok.mp h
  obtain ⟨_, -, h⟩ := bind_eq_ok.mp h
  obtain rfl := pure_eq_ok.mp h
  constructor
  · cases hasked : g.config.generateControllers.truthy <;> simp
  · cases hasked : g.config.generateServices.truthy <;> simp

theorem names_of_mapM {α : Type} {f : α → Except Fault CodeFile} {name : String} {o : Option α}
    {made : Option CodeFile} (hf : ∀ a file, f a = .ok file → file.fileName = name)
    (h : o.mapM f = .ok made) :
    made.toList.map (·.fileName) = if o.isSome then [name] else [] := by
  cases o with
  | none =>
      obtain rfl := pure_eq_ok.mp h
      rfl
  | some a =>
      obtain ⟨file, hfile, rfl⟩ := map_eq_ok (show (f a).map some = .ok made from h)
      simp [hf a file hfile]

/-- A project has one file for each kind of code that the configuration asks for. -/
theorem names_of_render (hbuild : g.build = .ok batch) (h : g.render t batch = .ok project) :
    project.files.map (·.fileName) = (kinds g.config).map (nameOf g.resource) := by
  obtain ⟨hcontroller, hservice⟩ := isSome_of_build hbuild
  obtain ⟨models, hmodels, h⟩ := ite_bind_eq_ok.mp h
  obtain ⟨controller, hc, h⟩ := bind_eq_ok.mp h
  obtain ⟨service, hs, h⟩ := bind_eq_ok.mp h
  obtain rfl := pure_eq_ok.mp h
  have hfile : ∀ {kind template : String} {context : Template.Context} {file : CodeFile},
      (do
        let content ← Template.render t g.config.templateDir template context
        return { fileName := g.fileName kind, content } : Except Fault CodeFile) = .ok file →
      file.fileName = nameOf g.resource kind := by
    intro kind template context file h
    obtain ⟨content, -, h⟩ := bind_eq_ok.mp h
    obtain rfl := pure_eq_ok.mp h
    rfl
  have hfirst : models.toList.map (·.fileName) =
      if g.config.generateDtos.truthy then [nameOf g.resource "dto"] else [] := by
    split at hmodels
    · next hdtos =>
        rw [names_of_mapM (o := some ()) (fun _ _ => hfile) hmodels, if_pos hdtos]
        rfl
    · next hdtos =>
        obtain rfl := pure_eq_ok.mp hmodels
        rw [if_neg hdtos]
        rfl
  rw [List.map_append, List.map_append, hfirst, names_of_mapM (fun _ _ => hfile) hc,
    names_of_mapM (fun _ _ => hfile) hs, hcontroller, hservice, kinds]
  simp only [List.map_append]
  congr 1
  · congr 1 <;> split <;> rfl
  · split <;> rfl

theorem make_eq_ok {resolved written : Document} {resource : String} {config : Config}
    {spec : Option String} (h : make t resolved written resource config spec = .ok g) :
    g.resource = resource ∧ g.config = config := by
  obtain ⟨_, -, h⟩ := bind_eq_ok.mp h
  obtain rfl := pure_eq_ok.mp h
  exact ⟨rfl, rfl⟩

end Generator

theorem Spec.path_of_load {t : Files.Tree} {reply : Option Reply} {path : String} {spec : Spec}
    (h : Spec.load t reply path = .ok spec) : spec.path = path := by
  unfold Spec.load at h
  dsimp only at h
  split at h
  · exact absurd h throw_ne_ok
  · split at h
    · exact absurd h throw_bind_ne_ok
    · split at h
      · exact absurd h throw_bind_ne_ok
      · obtain ⟨_, -, h⟩ := bind_eq_ok.mp h
        obtain rfl := pure_eq_ok.mp h
        rfl

namespace Cli

/-- What a project is called hangs on the path of the specification, what it has on the
configuration. -/
theorem generateSpec_names {config : Config} {path : String} {s t : Session} {project : Project}
    (h : Yields (generateSpec config path) s project t) :
    project.files.map (·.fileName) =
      (Generator.kinds config).map (Generator.nameOf (Naming.resourceName path)) := by
  obtain ⟨⟨⟩, s₁, -, h⟩ := yields_bind.mp h
  obtain ⟨spec, s₂, hspec, h⟩ := yields_bind.mp h
  obtain ⟨⟨⟩, s₃, -, h⟩ := yields_bind.mp h
  obtain ⟨generator, s₄, hgenerator, h⟩ := yields_bind.mp h
  obtain ⟨batch, hbatch, h⟩ := yields_lift_bind.mp h
  obtain ⟨v, hrender⟩ : ∃ v : Session, generator.render v.tree batch = .ok project := by
    dsimp only at h
    split at h
    · obtain ⟨⟨⟩, v, -, h⟩ := yields_bind.mp h
      exact ⟨v, (yields_look.mp h).1⟩
    · exact ⟨s₄, (yields_look.mp h).1⟩
  have hpath := Spec.path_of_load (yields_look.mp hspec).1
  obtain ⟨hresource, hconfig⟩ := Generator.make_eq_ok (yields_look.mp hgenerator).1
  rw [Generator.names_of_render hbatch hrender, hresource, hconfig, Spec.resource, hpath]

end Cli

/-! ## Specifications that are found -/

namespace SpecFiles

variable {t : Files.Tree} {directory path : String}

/-- What a path leads to last is what it ends with. -/
theorem finishesWith_intercalate {ext : String} {names : List String}
    (h : Text.finishesWith ext (names.getLast?.getD "") = true) :
    Text.finishesWith ext ("/".intercalate names) = true := by
  induction names with
  | nil => exact h
  | cons name names ih =>
      cases names with
      | nil => simpa using h
      | cons next names =>
          rw [String.intercalate_cons_cons]
          exact Text.finishesWith_append (ih (by simpa using h))

theorem finishesWith_join {ext : String} (h : Text.finishesWith ext path = true) :
    Text.finishesWith ext (Files.join directory path) = true := by
  unfold Files.join
  split_ifs
  · exact h
  · exact Text.finishesWith_append h
  · exact Text.finishesWith_append h

theorem exists_finishesWith_of_mem_filesBelow (h : path ∈ filesBelow t directory) :
    ∃ ext ∈ Naming.specExtensions, Text.finishesWith ext path = true := by
  unfold filesBelow at h
  split at h
  · cases h
  · obtain ⟨names, hnames, rfl⟩ := List.mem_map.mp h
    obtain ⟨ext, hext, hends⟩ := List.any_eq_true.mp (List.mem_filter.mp hnames).2
    exact ⟨ext, hext, finishesWith_join (finishesWith_intercalate hends)⟩

/-- A specification that is found has an extension of specifications. -/
theorem exists_extension {specs : List String} {value : Json} (h : find t value = .ok specs)
    (hpath : path ∈ specs) : ∃ ext ∈ Naming.specExtensions, ∃ front, path = front ++ ext := by
  have hfound : ∃ directory, path ∈ filesBelow t directory := by
    unfold find at h
    split at h
    · cases h
      cases hpath
    · split at h
      · cases h
        unfold inDirectory at hpath
        split at hpath
        · have hpath := (List.mem_filter.mp (mem_sortedFirsts.mp hpath)).1
          obtain ⟨directory, -, hbelow⟩ := List.mem_flatMap.mp hpath
          exact ⟨directory, hbelow⟩
        · cases hpath
      · cases h
        cases hpath
      · cases h
        cases hpath
      · cases h
  obtain ⟨directory, hbelow⟩ := hfound
  obtain ⟨ext, hext, hends⟩ := exists_finishesWith_of_mem_filesBelow hbelow
  obtain ⟨front, hfront⟩ := Text.finishesWith_iff.mp hends
  refine ⟨ext, hext, String.ofList front, ?_⟩
  rw [← String.toList_inj, ← hfront]
  simp

end SpecFiles

/-! ## Projects side by side -/

/-- Where the files of a project go below a directory. -/
def Project.paths (p : Project) (directory : String) : List String :=
  p.files.map fun file => Files.join directory file.fileName

namespace Cli

section Outputs

variable {config : Config} {p q : String} {s t u v : Session} {a b : Project}

theorem paths_of_generateSpec (h : Yields (generateSpec config p) s a t) (directory : String) :
    a.paths directory = (Generator.kinds config).map fun kind =>
      Files.join directory (Generator.nameOf (Naming.resourceName p) kind) := by
  have hpaths : a.paths directory =
      (a.files.map (·.fileName)).map (Files.join directory) := by
    rw [List.map_map]
    rfl
  rw [hpaths, generateSpec_names h, List.map_map, Function.comp_def]

/-- Projects of resources with different names have no file in common. -/
theorem disjoint_paths (ha : Yields (generateSpec config p) s a t)
    (hb : Yields (generateSpec config q) u b v)
    (hne : Naming.resourceName p ≠ Naming.resourceName q) (directory : String) :
    (a.paths directory).Disjoint (b.paths directory) := by
  rw [paths_of_generateSpec ha, paths_of_generateSpec hb]
  intro path hpath hpath'
  obtain ⟨kind, hkind, rfl⟩ := List.mem_map.mp hpath
  obtain ⟨kind', hkind', hjoin⟩ := List.mem_map.mp hpath'
  have hp := Naming.slash_notMem_resourceName p
  have hq := Naming.slash_notMem_resourceName q
  have hname := Files.join_left_cancel (Generator.isAbsolute_nameOf hq)
    (Generator.isAbsolute_nameOf hp) hjoin
  exact hne (Generator.resource_eq_of_nameOf hp hq (Generator.slash_notMem_kinds kind hkind)
    (Generator.slash_notMem_kinds kind' hkind') hname.symm)

/-- Specifications that are found have a name of a resource with an extension, and perhaps a mark.
Their projects have no file in common if these names differ, and all files otherwise. -/
theorem outputs_disjoint_iff {tree : Files.Tree} {specs : List String}
    (hfind : SpecFiles.find tree config.specsDir = .ok specs) (hp : p ∈ specs) (hq : q ∈ specs)
    (ha : Yields (generateSpec config p) s a t) (hb : Yields (generateSpec config q) u b v)
    (directory : String) :
    (∀ path ∈ [p, q], ∃ ext ∈ Naming.specExtensions,
      Files.lastPart path = Naming.resourceName path ++ ".openapi" ++ ext ∨
        Files.lastPart path = Naming.resourceName path ++ ext ∧
          Text.finishesWith ".openapi" (Naming.resourceName path) = false) ∧
      ((a.paths directory).Disjoint (b.paths directory) ↔
        Naming.resourceName p ≠ Naming.resourceName q ∨ a.files = []) ∧
      (Naming.resourceName p = Naming.resourceName q → a.paths directory = b.paths directory) := by
  have hsame : Naming.resourceName p = Naming.resourceName q →
      a.paths directory = b.paths directory := by
    intro h
    rw [paths_of_generateSpec ha, paths_of_generateSpec hb, h]
  refine ⟨?_, ⟨fun hdisjoint => ?_, ?_⟩, hsame⟩
  · intro path hpath
    have hfound : path ∈ specs := by
      rcases List.mem_pair.mp hpath with rfl | rfl
      · exact hp
      · exact hq
    obtain ⟨ext, hext, front, hfront⟩ := SpecFiles.exists_extension hfind hfound
    exact ⟨ext, hext, Naming.lastPart_eq hext hfront⟩
  · by_cases hname : Naming.resourceName p = Naming.resourceName q
    · rw [← hsame hname] at hdisjoint
      have hnone : a.paths directory = [] :=
        List.eq_nil_iff_forall_not_mem.mpr fun path hpath => hdisjoint hpath hpath
      exact Or.inr (List.map_eq_nil_iff.mp hnone)
    · exact Or.inl hname
  · rintro (hname | hnone)
    · exact disjoint_paths ha hb hname directory
    · rw [Project.paths, hnone]
      exact List.disjoint_nil_left _

end Outputs

/-- The project of a specification of `shelf`. -/
theorem yields_shelf {name : String} (h : name ∈ ["able", "calm"]) :
    let start : Session := { tree := shelf }
    let path := "specs/" ++ name ++ ".yaml"
    Yields (generateSpec shelfConfig path) start
      ⟨name, [⟨name ++ "/" ++ name ++ ".dto.ts", "// models"⟩]⟩
      ((generateSpec shelfConfig path).run.run start).2 := by
  have hvalue : ∀ name ∈ ["able", "calm"],
      ((generateSpec shelfConfig ("specs/" ++ name ++ ".yaml")).run.run { tree := shelf }).1 =
        .ok ⟨name, [⟨name ++ "/" ++ name ++ ".dto.ts", "// models"⟩]⟩ := by
    decide +kernel
  exact Prod.ext (hvalue name h) rfl

theorem shelf_disjoint :
    (Project.paths ⟨"able", [⟨"able/able.dto.ts", "// models"⟩]⟩ "out").Disjoint
      (Project.paths ⟨"calm", [⟨"calm/calm.dto.ts", "// models"⟩]⟩ "out") :=
  (outputs_disjoint_iff find_shelf (by decide) (by decide) (yields_shelf (by decide))
    (yields_shelf (by decide)) "out").2.1.mpr (.inl (by decide))

/-- Two specifications of one resource: in another directory, and with a mark in the name. -/
def twins : Files.Tree where
  here := ["work"]
  entries := [(["work"], .directory), (["work", "specs"], .directory),
    (["work", "specs", "new"], .directory),
    (["work", "specs", "new", "user.yaml"], .file "openapi: 3.0.0\npaths:\n" 1),
    (["work", "specs", "user.openapi.yaml"], .file "swagger: 2.0\npaths:\n" 2),
    (["work", "forms"], .directory), (["work", "forms", "dto.j2"], .file "// models" 3)]

/-- Both are found and generated, and both go to one file. -/
theorem twins_collide :
    let p := "specs/new/user.yaml"
    let q := "specs/user.openapi.yaml"
    ∃ specs a b t v, SpecFiles.find twins shelfConfig.specsDir = .ok specs ∧ p ∈ specs ∧ q ∈ specs ∧
      p ≠ q ∧ Yields (generateSpec shelfConfig p) { tree := twins } a t ∧
      Yields (generateSpec shelfConfig q) { tree := twins } b v ∧
      "out/user/user.dto.ts" ∈ a.paths "out" ∧ "out/user/user.dto.ts" ∈ b.paths "out" := by
  have hfind : SpecFiles.find twins shelfConfig.specsDir =
      .ok ["specs/new/user.yaml", "specs/user.openapi.yaml"] :=
    SpecFiles.find_of_sorted (by decide) (by decide) (by decide) (by decide)
  have hvalue : ∀ path ∈ ["specs/new/user.yaml", "specs/user.openapi.yaml"],
      ((generateSpec shelfConfig path).run.run { tree := twins }).1 =
        .ok ⟨"user", [⟨"user/user.dto.ts", "// models"⟩]⟩ := by
    decide +kernel
  have hyields : ∀ path ∈ ["specs/new/user.yaml", "specs/user.openapi.yaml"],
      ∃ t, Yields (generateSpec shelfConfig path) { tree := twins }
        ⟨"user", [⟨"user/user.dto.ts", "// models"⟩]⟩ t :=
    fun path hpath => ⟨_, Prod.ext (hvalue path hpath) rfl⟩
  have hpath : "out/user/user.dto.ts" ∈
      Project.paths ⟨"user", [⟨"user/user.dto.ts", "// models"⟩]⟩ "out" := by
    decide
  obtain ⟨t, hfirst⟩ := hyields "specs/new/user.yaml" (by decide)
  obtain ⟨v, hsecond⟩ := hyields "specs/user.openapi.yaml" (by decide)
  exact ⟨_, _, _, t, v, hfind, by decide, by decide, by decide, hfirst, hsecond, hpath, hpath⟩

end Cli

end ApiScaffold
