import Stencil.Proofs.JoinedTexts
import Stencil.Proofs.RegistrationOrder
import Stencil.Proofs.SharedLexer
import Stencil.Proofs.TreeFiles

/-!
# What is loaded from a directory

The components of a directory are its files with a configured extension, each named by its path
without that extension. Only siblings that differ in nothing but the extension share a name, and of
these the last by the bytes of the file name is kept. Nothing else is lost, whatever lexer the files
are lexed with.
-/

namespace Stencil

/-- A file below a directory, by a name with an extension. -/
structure ComponentFile where
  directory : List String
  stem : String
  extension : String
  deriving DecidableEq, Repr

namespace ComponentFile

def fileName (f : ComponentFile) : String := f.stem ++ "." ++ f.extension

/-- The names that lead to the file. -/
def names (f : ComponentFile) : List String := f.directory ++ [f.fileName]

/-- The relative path of the file without its extension. -/
def component (f : ComponentFile) : String := "/".intercalate (f.directory ++ [f.stem])

/-- The file is in the directory, and an extension of the configuration is what stands behind the
last dot of its name, with any number of dots in front. -/
structure Accepted (config : Config) (dir : FileTree) (f : ComponentFile) : Prop where
  file : ∃ content, dir.below? f.names = some (.file content)
  stem : f.stem ≠ ""
  extension : '.' ∉ f.extension.toList
  known : ∃ known ∈ config.extensions, ∃ dots : Nat,
    known.toList = List.replicate dots '.' ++ f.extension.toList

/-- The file is accepted, and no other one of the same component has a name that is greater by its
bytes. -/
structure Greatest (config : Config) (dir : FileTree) (f : ComponentFile) : Prop extends
    f.Accepted config dir where
  greatest : ∀ g : ComponentFile, g.Accepted config dir → g.component = f.component →
    utf8Bytes g.fileName ≤ utf8Bytes f.fileName

/-- The file that names lead to, if the last of them has an extension. -/
def of? (names : List String) : Option ComponentFile :=
  names.getLast?.bind fun last => (Path.cut? last).map fun e => ⟨names.dropLast, e.1, e.2⟩

def hasKnownExtension (config : Config) (f : ComponentFile) : Bool :=
  config.extensions.any fun known => Config.bareExtension known == f.extension

/-- A listed file with its text, if it is accepted. -/
def accepted? (config : Config) (file : List String × ByteArray) : Option (ComponentFile × String) :=
  ((of? file.1).filter (hasKnownExtension config)).map fun f =>
    (f, (String.fromUTF8? file.2).getD "")

variable {config : Config} {dir : FileTree} {f g : ComponentFile} {names : List String}
variable {file : List String × ByteArray} {path : String}

/-- Without the dots in front an extension is a given text without dots exactly if it is that text
behind a number of dots. -/
theorem bareExtension_eq_iff {known extension : String} (h : '.' ∉ extension.toList) :
    Config.bareExtension known = extension ↔
      ∃ dots : Nat, known.toList = List.replicate dots '.' ++ extension.toList := by
  rw [Config.bareExtension, ← String.toList_inj, String.toList_ofList]
  constructor
  · intro hbare
    have htake : known.toList.takeWhile (· == '.') =
        List.replicate (known.toList.takeWhile (· == '.')).length '.' := by
      rw [List.eq_replicate_iff]
      exact ⟨rfl, fun c hc => by simpa using List.mem_takeWhile_imp hc⟩
    refine ⟨(known.toList.takeWhile (· == '.')).length, ?_⟩
    rw [← htake, ← hbare, List.takeWhile_append_dropWhile]
  · rintro ⟨dots, hknown⟩
    have hdots : ∀ c ∈ List.replicate dots '.', (c == '.') = true := by
      intro c hc
      rw [List.eq_of_mem_replicate hc]
      rfl
    rw [hknown, List.dropWhile_append_of_pos hdots]
    cases hchars : extension.toList with
    | nil => rfl
    | cons c cs =>
        rw [hchars, List.mem_cons, not_or] at h
        rw [List.dropWhile_cons_of_neg]
        simpa using Ne.symm h.1

theorem hasKnownExtension_iff (h : '.' ∉ f.extension.toList) : hasKnownExtension config f = true ↔
    ∃ known ∈ config.extensions, ∃ dots : Nat,
      known.toList = List.replicate dots '.' ++ f.extension.toList := by
  simp only [hasKnownExtension, List.any_eq_true, beq_iff_eq, bareExtension_eq_iff h]

theorem of?_concat {directory : List String} {last : String} : of? (directory ++ [last]) =
    (Path.cut? last).map fun e => ⟨directory, e.1, e.2⟩ := by
  rw [of?, List.getLast?_concat, List.dropLast_concat]
  rfl

/-- Names that lead to a file with an extension are those of the file. -/
theorem of?_eq_some (h : of? names = some f) :
    names = f.names ∧ f.stem ≠ "" ∧ '.' ∉ f.extension.toList := by
  obtain rfl | ⟨directory, last, rfl⟩ := List.eq_nil_or_concat' names
  · cases h
  · rw [of?_concat] at h
    obtain ⟨⟨stem, extension⟩, hcut, rfl⟩ := Option.map_eq_some_iff.1 h
    obtain ⟨_, rfl, hstem, hextension⟩ := Path.cut?_eq_some_iff.1 hcut
    exact ⟨rfl, hstem, hextension⟩

theorem of?_names (hname : f.fileName ≠ "..") (hstem : f.stem ≠ "")
    (hextension : '.' ∉ f.extension.toList) : of? f.names = some f := by
  rw [ComponentFile.names, of?_concat, Path.cut?_eq_some_iff.2 ⟨hname, rfl, hstem, hextension⟩]
  rfl

theorem componentName_concat (directory : List String) (last : String) :
    componentName (directory ++ [last]) = "/".intercalate (directory ++ [Path.stem last]) := by
  induction directory with
  | nil => simp [componentName]
  | cons name rest ih =>
      cases rest with
      | nil => simp [componentName, String.intercalate_cons_cons]
      | cons second rest =>
          rw [List.cons_append, List.cons_append, List.cons_append, List.cons_append, componentName,
            String.intercalate_cons_cons, ← List.cons_append, ih]
          · rfl
          · simp

theorem componentName_of? (h : of? names = some f) (hstem : f.stem ≠ ".") :
    componentName names = f.component := by
  obtain rfl | ⟨directory, last, rfl⟩ := List.eq_nil_or_concat' names
  · cases h
  · rw [of?_concat] at h
    obtain ⟨⟨stem, extension⟩, hcut, rfl⟩ := Option.map_eq_some_iff.1 h
    rw [componentName_concat, Path.stem_of_cut? hcut hstem]
    rfl

theorem accepts_below (h : ∀ name ∈ names, IsEntryName name) (hne : names ≠ []) :
    config.accepts (Path.below path names) = (of? names).any (hasKnownExtension config) := by
  obtain rfl | ⟨directory, last, rfl⟩ := List.eq_nil_or_concat' names
  · exact absurd rfl hne
  · have hjoin : Path.below path (directory ++ [last]) =
        Path.join (Path.below path directory) last := List.foldl_concat ..
    rw [Config.accepts, hjoin, Path.extension?_join (h last (by simp)), of?_concat]
    cases Path.cut? last <;> rfl

/-- A file that is accepted is registered with its text, if the path to it can be followed. -/
theorem addFile_below {registry : Registry} (proper : FileTree.Proper file) :
    Registry.addFile config registry (.below path file) =
      match accepted? config file, FileTree.checkPath (Path.below path file.1) with
      | none, _ => .ok registry
      | some e, .ok () => .ok (registry.register e.1.component e.2)
      | some _, .error e => .error (.read (Path.below path file.1) e) := by
  obtain ⟨text, htext⟩ := proper.text
  rw [Registry.addFile, FoundFile.below]
  dsimp only
  rw [accepts_below proper.names proper.nonempty, accepted?]
  cases hof : of? file.1 with
  | none => rfl
  | some f =>
      obtain ⟨hnames, _, hextension⟩ := of?_eq_some hof
      have hstem : f.stem ≠ "." := by
        intro hdot
        apply proper.stem f.fileName _ f.extension hextension
        · rw [fileName, hdot]
        · rw [hnames, ComponentFile.names, List.getLast?_concat]
          rfl
      cases hknown : hasKnownExtension config f with
      | false =>
          rw [Option.any_some, hknown, Option.filter_some, hknown]
          rfl
      | true =>
          rw [Option.any_some, hknown, if_pos rfl, Option.filter_some, hknown, if_pos rfl,
            FoundFile.text, htext, FileTree.decode, fromUTF8?_toUTF8, componentName_of? hof hstem]
          cases FileTree.checkPath (Path.below path file.1) <;> rfl

end ComponentFile

namespace Registry

open ComponentFile (accepted?)

variable {config : Config} {tree dir : FileTree} {entries : List (String × FileTree)}
variable {registry : Registry} {listed : List (List String × ByteArray)} {path : String}
variable {f g : ComponentFile} {source : String}

/-- The accepted files of a directory with their texts, in the order of a walk. -/
def acceptedFiles (config : Config) (dir : FileTree) : List (ComponentFile × String) :=
  dir.files.filterMap (accepted? config)

/-- What accepted files are registered as. -/
def registrations (accepted : List (ComponentFile × String)) : List (String × String) :=
  accepted.map fun e => (e.1.component, e.2)

/-- The registry that is made of the accepted files of a directory. -/
def ofFiles (config : Config) (dir : FileTree) : Registry :=
  ofRegistrations config.maxDepth (registrations (acceptedFiles config dir))

section Loading

theorem foldlM_addFile (proper : ∀ file ∈ listed, FileTree.Proper file) {result : Registry}
    (h : (listed.map (.below path)).foldlM (addFile config) registry = .ok result) :
    result = registry.registerAll (registrations (listed.filterMap (accepted? config))) := by
  induction listed generalizing registry with
  | nil =>
      cases h
      rfl
  | cons file rest ih =>
      obtain ⟨hfile, hrest⟩ := List.forall_mem_cons.1 proper
      rw [List.map_cons, List.foldlM_cons] at h
      obtain ⟨next, hnext, hresult⟩ := bind_eq_ok.1 h
      rw [ComponentFile.addFile_below hfile] at hnext
      rw [ih hrest hresult, registrations, registrations, List.filterMap_cons]
      split at hnext
      · rename_i hnone
        cases hnext
        rw [hnone]
      · rename_i e hsome _
        cases hnext
        rw [hsome]
        rfl
      · cases hnext

theorem foldlM_addFile_total (proper : ∀ file ∈ listed, FileTree.Proper file)
    (followable : ∀ file ∈ listed, FileTree.checkPath (Path.below path file.1) = .ok ()) :
    ∃ result, (listed.map (.below path)).foldlM (addFile config) registry = .ok result := by
  induction listed generalizing registry with
  | nil => exact ⟨registry, rfl⟩
  | cons file rest ih =>
      obtain ⟨hfile, hrest⟩ := List.forall_mem_cons.1 proper
      obtain ⟨hcheck, hfollowable⟩ := List.forall_mem_cons.1 followable
      have hnext : ∃ next, addFile config registry (.below path file) = .ok next := by
        rw [ComponentFile.addFile_below hfile, hcheck]
        cases accepted? config file with
        | none => exact ⟨_, rfl⟩
        | some e => exact ⟨_, rfl⟩
      obtain ⟨next, hnext⟩ := hnext
      obtain ⟨result, hresult⟩ : ∃ result,
          (rest.map (.below path)).foldlM (addFile config) next = .ok result :=
        ih hrest hfollowable
      rw [List.map_cons, List.foldlM_cons, hnext]
      exact ⟨result, hresult⟩

theorem load_of_target (htarget : tree.target config.componentsDir = .ok (.directory entries)) :
    load config tree = tree.walk config.followSymlinks config.componentsDir
      ⟨addFile config, .walk⟩ (empty.withMaxDepth config.maxDepth) := by
  have hexists : tree.exists? config.componentsDir = true := by
    rw [FileTree.exists?, htarget]
    rfl
  rw [load]
  exact if_pos hexists

/-- A load that succeeds has registered the accepted files one after the other. -/
theorem eq_ofFiles_of_load (htarget : tree.target config.componentsDir = .ok (.directory entries))
    (ordinary : (FileTree.directory entries).Ordinary) (h : load config tree = .ok registry) :
    registry = ofFiles config (.directory entries) := by
  rw [load_of_target htarget] at h
  obtain hwalk | ⟨_, fault, hfault⟩ := FileTree.walk_files ⟨addFile config, .walk⟩ _ htarget ordinary
  · exact foldlM_addFile (fun _ => FileTree.proper_of_mem_files ordinary) (hwalk.symm.trans h)
  · cases hfault.symm.trans h

theorem load_total (htarget : tree.target config.componentsDir = .ok (.directory entries))
    (ordinary : (FileTree.directory entries).Ordinary)
    (hsize : ∀ names node, (FileTree.directory entries).below? names = some node →
      (Path.below config.componentsDir names).utf8ByteSize ≤ Path.sizeLimit) :
    ∃ registry, load config tree = .ok registry := by
  have hunblocked := FileTree.not_blocked ordinary (FileTree.checkPath_of_target htarget) hsize
  rw [load_of_target htarget]
  obtain hwalk | ⟨hblocked, _⟩ := FileTree.walk_files ⟨addFile config, .walk⟩ _ htarget ordinary
  · rw [hwalk]
    apply foldlM_addFile_total fun _ => FileTree.proper_of_mem_files ordinary
    intro file hfile
    cases hcheck : FileTree.checkPath (Path.below config.componentsDir file.1) with
    | ok => rfl
    | error e =>
        exact absurd ⟨_, _, e, (FileTree.mem_files ordinary).1 hfile, hcheck⟩ hunblocked
  · exact absurd hblocked hunblocked

end Loading

section Contents

theorem isEntryName_of_accepted (ordinary : dir.Ordinary) (h : f.Accepted config dir) :
    (∀ name ∈ f.directory, IsEntryName name) ∧ IsEntryName f.fileName := by
  obtain ⟨content, hbelow⟩ := h.file
  have hnames := (FileTree.ordinary_of_below? ordinary hbelow).2
  rwa [ComponentFile.names, List.forall_mem_append, List.forall_mem_singleton] at hnames

theorem mem_acceptedFiles (ordinary : dir.Ordinary) : (f, source) ∈ acceptedFiles config dir ↔
    f.Accepted config dir ∧ dir.below? f.names = some (.file source.toUTF8) := by
  rw [acceptedFiles, List.mem_filterMap]
  constructor
  · rintro ⟨⟨names, content⟩, hfile, haccepted⟩
    obtain ⟨g, hfilter, heq⟩ := Option.map_eq_some_iff.1 haccepted
    obtain ⟨hof, hknown⟩ := Option.filter_eq_some_iff.1 hfilter
    obtain ⟨hnames, hstem, hextension⟩ := ComponentFile.of?_eq_some hof
    obtain ⟨text, htext⟩ := FileTree.text_of_mem_files ordinary hfile
    have hbelow := (FileTree.mem_files ordinary).1 hfile
    dsimp only at hnames heq
    rw [htext, fromUTF8?_toUTF8] at heq
    obtain ⟨rfl, rfl⟩ := Prod.mk.inj heq
    rw [hnames, htext] at hbelow
    have hknown := (ComponentFile.hasKnownExtension_iff hextension).1 hknown
    exact ⟨⟨⟨_, hbelow⟩, hstem, hextension, hknown⟩, hbelow⟩
  · rintro ⟨h, hbelow⟩
    refine ⟨_, (FileTree.mem_files ordinary).2 hbelow, ?_⟩
    have hof : ComponentFile.of? f.names = some f :=
      ComponentFile.of?_names (isEntryName_of_accepted ordinary h).2.notDots h.stem h.extension
    have hknown := (ComponentFile.hasKnownExtension_iff h.extension).2 h.known
    rw [accepted?, hof, Option.filter_some, hknown, fromUTF8?_toUTF8]
    rfl

theorem acceptedFiles_ascending (ordinary : dir.Ordinary) :
    (acceptedFiles config dir).Pairwise fun e e' => e.1.names < e'.1.names := by
  have hnames : ∀ {file e}, accepted? config file = some e → file.1 = e.1.names := by
    intro file e h
    obtain ⟨g, hfilter, rfl⟩ := Option.map_eq_some_iff.1 h
    exact (ComponentFile.of?_eq_some (Option.filter_eq_some_iff.1 hfilter).1).1
  rw [acceptedFiles, List.pairwise_filterMap]
  refine (List.pairwise_map.1 (FileTree.files_ascending ordinary)).imp ?_
  intro file file' hlt e he e' he'
  rwa [← hnames he, ← hnames he']

theorem exists_source (ordinary : dir.Ordinary) (h : f.Accepted config dir) :
    ∃ source, (f, source) ∈ acceptedFiles config dir := by
  obtain ⟨content, hbelow⟩ := h.file
  obtain ⟨source, hsource⟩ :=
    FileTree.text_of_mem_files ordinary ((FileTree.mem_files ordinary).2 hbelow)
  rw [hsource] at hbelow
  exact ⟨source, (mem_acceptedFiles ordinary).2 ⟨h, hbelow⟩⟩

/-- Two accepted files have one component name if and only if they are siblings that differ in
nothing but the extension. -/
theorem component_eq_iff (ordinary : dir.Ordinary) (hf : f.Accepted config dir)
    (hg : g.Accepted config dir) :
    f.component = g.component ↔ f.directory = g.directory ∧ f.stem = g.stem := by
  have hslash : ∀ {f : ComponentFile}, f.Accepted config dir →
      ∀ part ∈ f.directory ++ [f.stem], '/' ∉ part.toList := by
    intro f hf part hpart
    obtain ⟨hdirectory, hfileName⟩ := isEntryName_of_accepted ordinary hf
    obtain hpart | hpart := List.mem_append.1 hpart
    · exact (hdirectory part hpart).noSlash
    · have hname := hfileName.noSlash
      rw [List.mem_singleton.1 hpart]
      simp only [ComponentFile.fileName, String.toList_append, List.mem_append, not_or] at hname
      exact hname.1.1
  constructor
  · intro h
    have hparts := intercalate_inj rfl (by simp) (by simp) (hslash hf) (hslash hg) h
    obtain ⟨hdirectory, hstem⟩ := List.append_inj' hparts rfl
    exact ⟨hdirectory, List.singleton_inj.1 hstem⟩
  · rintro ⟨hdirectory, hstem⟩
    rw [ComponentFile.component, hdirectory, hstem, ComponentFile.component]

theorem concat_lt_concat_iff (front : List String) {a b : String} :
    front ++ [a] < front ++ [b] ↔ a < b := by
  induction front with
  | nil => simp [List.cons_lt_cons_iff]
  | cons name front ih =>
      rw [List.cons_append, List.cons_append, List.cons_lt_cons_iff, ih]
      simp

/-- The last source that is registered for a component is that of its greatest file. -/
theorem exists_greatest_of_lastSource (ordinary : dir.Ordinary) {name : String}
    (h : lastSource (registrations (acceptedFiles config dir)) name = some source) :
    ∃ f : ComponentFile, f.Greatest config dir ∧ f.component = name ∧
      dir.below? f.names = some (.file source.toUTF8) := by
  obtain ⟨later, earlier, hsplit, hlater⟩ := List.lookup_eq_some_iff.1 h
  rw [registrations, ← List.map_reverse, List.map_eq_append_iff] at hsplit
  obtain ⟨laterFiles, rest, hreverse, hlaterFiles, hrest⟩ := hsplit
  obtain ⟨⟨f, text⟩, earlierFiles, rfl, hfile, _⟩ := List.map_eq_cons_iff.1 hrest
  obtain ⟨hcomponent, rfl⟩ := Prod.mk.inj hfile
  have hmem : (f, text) ∈ acceptedFiles config dir := by
    rw [← List.mem_reverse, hreverse]
    exact List.mem_append_right _ List.mem_cons_self
  obtain ⟨hf, hbelow⟩ := (mem_acceptedFiles ordinary).1 hmem
  refine ⟨f, ⟨hf, ?_⟩, hcomponent, hbelow⟩
  intro g hg hsame
  rw [utf8Bytes_le_iff]
  obtain ⟨text', hg'⟩ := exists_source ordinary hg
  rw [← List.mem_reverse, hreverse, List.mem_append, List.mem_cons] at hg'
  obtain hg' | heq | hg' := hg'
  · have hne := hlater (g.component, text') (hlaterFiles ▸ List.mem_map_of_mem hg')
    rw [hsame, hcomponent] at hne
    simp at hne
  · obtain ⟨rfl, _⟩ := Prod.mk.inj heq
    exact String.lt_irrefl _
  · -- what is registered earlier stands before in the listing
    have hascending : (acceptedFiles config dir).reverse.Pairwise fun e e' =>
        e'.1.names < e.1.names := List.pairwise_reverse.2 (acceptedFiles_ascending ordinary)
    rw [hreverse, List.pairwise_append, List.pairwise_cons] at hascending
    have hnames : g.names < f.names := hascending.2.1.1 _ hg'
    obtain ⟨hdirectory, _⟩ := (component_eq_iff ordinary hg hf).1 hsame
    rw [ComponentFile.names, ComponentFile.names, hdirectory, concat_lt_concat_iff] at hnames
    exact String.lt_asymm hnames

/-- Of the accepted files of a component only one is the greatest. -/
theorem names_eq_of_greatest (ordinary : dir.Ordinary) (hf : f.Greatest config dir)
    (hg : g.Greatest config dir) (h : f.component = g.component) : f.names = g.names := by
  have hname : f.fileName = g.fileName := by
    by_contra hne
    have hnot := utf8Bytes_le_iff.1 (hf.greatest g hg.toAccepted h.symm)
    have hnot' := utf8Bytes_le_iff.1 (hg.greatest f hf.toAccepted h)
    exact hnot' (Dictionary.key_lt_of_not_lt hnot hne)
  obtain ⟨hdirectory, _⟩ := (component_eq_iff ordinary hf.toAccepted hg.toAccepted).1 h
  rw [ComponentFile.names, hname, hdirectory, ComponentFile.names]

/-- Under a single extension no two accepted files share a component. -/
theorem eq_of_component_eq (ordinary : dir.Ordinary) (single : config.extensions.length = 1)
    (hf : f.Accepted config dir) (hg : g.Accepted config dir) (h : f.component = g.component) :
    f = g := by
  obtain ⟨extension, hextensions⟩ := List.length_eq_one_iff.1 single
  have hknown : ∀ {f : ComponentFile}, f.Accepted config dir →
      Config.bareExtension extension = f.extension := by
    intro f hf
    obtain ⟨known, hmem, hknown⟩ := hf.known
    rw [hextensions, List.mem_singleton] at hmem
    rw [← hmem, ComponentFile.bareExtension_eq_iff hf.extension]
    exact hknown
  obtain ⟨hdirectory, hstem⟩ := (component_eq_iff ordinary hf hg).1 h
  have hextension : f.extension = g.extension := (hknown hf).symm.trans (hknown hg)
  cases f
  cases g
  simp_all

/-- A registry holds the accepted files of a directory: a component for every name that one has, out
of the greatest file of that name. Under a single extension every accepted file is one component. -/
structure HoldsFilesOf (registry : Registry) (config : Config) (dir : FileTree) : Prop where
  names : ∀ name, name ∈ registry.names ↔
    ∃ f : ComponentFile, f.Accepted config dir ∧ f.component = name
  kept : ∀ name component, registry.get? name = some component ↔
    ∃ (f : ComponentFile) (source : String), f.Greatest config dir ∧ f.component = name ∧
      dir.below? f.names = some (.file source.toUTF8) ∧ component = .ofSource source
  size : ∃ files : List ComponentFile, files.Nodup ∧ (∀ f, f ∈ files ↔ f.Accepted config dir) ∧
    (config.extensions.length = 1 → registry.size = files.length)

theorem ofFiles_names (ordinary : dir.Ordinary) (name : String) :
    name ∈ (ofFiles config dir).names ↔
      ∃ f : ComponentFile, f.Accepted config dir ∧ f.component = name := by
  rw [mem_names, ofFiles, get?_ofRegistrations, Option.isSome_map, lastSource_isSome, registrations,
    List.map_map, List.mem_map]
  constructor
  · rintro ⟨e, he, hname⟩
    exact ⟨e.1, ((mem_acceptedFiles ordinary).1 he).1, hname⟩
  · rintro ⟨f, hf, hname⟩
    obtain ⟨source, hmem⟩ := exists_source ordinary hf
    exact ⟨_, hmem, hname⟩

theorem ofFiles_kept (ordinary : dir.Ordinary) (name : String) (component : Component) :
    (ofFiles config dir).get? name = some component ↔
      ∃ (f : ComponentFile) (source : String), f.Greatest config dir ∧ f.component = name ∧
        dir.below? f.names = some (.file source.toUTF8) ∧ component = .ofSource source := by
  rw [ofFiles, get?_ofRegistrations, Option.map_eq_some_iff]
  constructor
  · rintro ⟨source, hlast, rfl⟩
    obtain ⟨f, hf, hname, hbelow⟩ := exists_greatest_of_lastSource ordinary hlast
    exact ⟨f, source, hf, hname, hbelow, rfl⟩
  · rintro ⟨f, source, hf, rfl, hbelow, rfl⟩
    -- the name is registered, and its greatest file can be no other
    have hname := (ofFiles_names ordinary f.component).2 ⟨f, hf.toAccepted, rfl⟩
    rw [mem_names, ofFiles, get?_ofRegistrations, Option.isSome_map, Option.isSome_iff_exists]
      at hname
    obtain ⟨last, hlast⟩ := hname
    obtain ⟨g, hg, hsame, hlastBelow⟩ := exists_greatest_of_lastSource ordinary hlast
    rw [← names_eq_of_greatest ordinary hf hg hsame.symm, hbelow] at hlastBelow
    have htext := FileTree.file.inj (Option.some.inj hlastBelow)
    exact ⟨last, hlast, congrArg Component.ofSource (String.toByteArray_inj.1 htext.symm)⟩

theorem ofFiles_size (ordinary : dir.Ordinary) : ∃ files : List ComponentFile, files.Nodup ∧
    (∀ f, f ∈ files ↔ f.Accepted config dir) ∧
    (config.extensions.length = 1 → (ofFiles config dir).size = files.length) := by
  have hmem : ∀ f, f ∈ (acceptedFiles config dir).map (·.1) ↔ f.Accepted config dir := by
    intro f
    rw [List.mem_map]
    constructor
    · rintro ⟨e, he, rfl⟩
      exact ((mem_acceptedFiles ordinary).1 he).1
    · intro hf
      obtain ⟨source, hmem⟩ := exists_source ordinary hf
      exact ⟨_, hmem, rfl⟩
  have hnodup : ((acceptedFiles config dir).map (·.1)).Nodup := by
    rw [List.Nodup, List.pairwise_map]
    refine (acceptedFiles_ascending ordinary).imp ?_
    intro e e' hlt heq
    rw [heq] at hlt
    exact List.lt_irrefl _ hlt
  refine ⟨_, hnodup, hmem, ?_⟩
  intro single
  have hcomponents : (((acceptedFiles config dir).map (·.1)).map (·.component)).Nodup := by
    refine hnodup.map_on ?_
    intro f hf g hg h
    exact eq_of_component_eq ordinary single ((hmem f).1 hf) ((hmem g).1 hg) h
  have hperm : (ofFiles config dir).names.Perm
      (((acceptedFiles config dir).map (·.1)).map (·.component)) := by
    refine (List.perm_ext_iff_of_nodup (Dictionary.keys_nodup _) hcomponents).2 ?_
    intro name
    refine (ofFiles_names ordinary name).trans ?_
    rw [List.mem_map]
    exact exists_congr fun f => and_congr_left fun _ => (hmem f).symm
  have hlength := hperm.length_eq
  rw [List.length_map] at hlength
  rw [← hlength, names, Dictionary.keys, List.length_map]
  rfl

theorem ofFiles_holds (ordinary : dir.Ordinary) : (ofFiles config dir).HoldsFilesOf config dir where
  names := ofFiles_names ordinary
  kept := ofFiles_kept ordinary
  size := ofFiles_size ordinary

end Contents

/-- What is loaded from a directory without links, whose files are texts. The load succeeds if no
path in it is too long. What it holds are the accepted files, of which only siblings that differ in
nothing but the extension share a name. Lexed one after the other by one lexer, whatever is in the
buffers of that, they have the entries that a fresh lexer gives for each alone. -/
theorem load_holds_files (config : Config) (tree : FileTree) (entries : List (String × FileTree))
    (htarget : tree.target config.componentsDir = .ok (.directory entries))
    (ordinary : (FileTree.directory entries).Ordinary) :
    ((∀ names node, (FileTree.directory entries).below? names = some node →
        (Path.below config.componentsDir names).utf8ByteSize ≤ Path.sizeLimit) →
      ∃ registry, load config tree = .ok registry) ∧
    (∀ f g : ComponentFile, f.Accepted config (.directory entries) →
      g.Accepted config (.directory entries) →
      (f.component = g.component ↔ f.directory = g.directory ∧ f.stem = g.stem)) ∧
    ∀ registry, load config tree = .ok registry →
      registry.HoldsFilesOf config (.directory entries) ∧
      ∀ lexer : Lexer, ∃ left shared, loadSharing lexer config tree = .ok (left, shared) ∧
        shared.keys = registry.names ∧
        ∀ name component, registry.get? name = some component →
          ∃ entry, shared.get? name = some entry ∧
            Lexer.fresh.entry component.source = some (entry, .fresh) := by
  refine ⟨load_total htarget ordinary, fun f g hf hg => component_eq_iff ordinary hf hg, ?_⟩
  intro registry hload
  constructor
  · rw [eq_ofFiles_of_load htarget ordinary hload]
    exact ofFiles_holds ordinary
  · intro lexer
    have hshared := loadSharing_corresponds lexer config tree
    rw [hload] at hshared
    generalize loadSharing lexer config tree = result at hshared
    cases hshared with
    | @ok _ shared related =>
        refine ⟨shared.1, shared.2, rfl, ?_, ?_⟩
        · rw [related]
          exact Dictionary.keys_mapValues _ _
        · intro name component hcomponent
          have hsource : component = .ofSource component.source := Component.ext_source rfl
          refine ⟨component.entry, ?_, ?_⟩
          · rw [related, Registry.entries, Dictionary.get?_mapValues]
            exact congrArg (Option.map Component.entry) hcomponent
          · rw [Lexer.entry_eq, ← hsource]

/-- A directory with two files that differ in nothing but the extension, the first of which ends in
the middle of a placeholder, and a file that stands alone. -/
def siblings : List (String × FileTree) :=
  [("a.html", .file "$\x7bx".toUTF8), ("a.tpl", .file "y".toUTF8), ("b.html", .file "z".toUTF8)]

/-- An extension with a dot in front and one without. -/
def siblingConfig : Config := { extensions := [".html", "tpl"] }

theorem forall_mem_siblings {p : String × FileTree → Prop} : (∀ e ∈ siblings, p e) ↔
    p ("a.html", .file "$\x7bx".toUTF8) ∧ p ("a.tpl", .file "y".toUTF8) ∧
      p ("b.html", .file "z".toUTF8) := by
  rw [siblings, List.forall_mem_cons, List.forall_mem_cons, List.forall_mem_singleton]

theorem siblings_ordinary : (FileTree.directory siblings).Ordinary := by
  have hname : ∀ e ∈ siblings, IsEntryName e.1 := by
    rw [forall_mem_siblings]
    refine ⟨?_, ?_, ?_⟩ <;> constructor <;> decide
  have hstem : ∀ e ∈ siblings, ∀ extension : String, e.1 ≠ "." ++ "." ++ extension := by
    rw [forall_mem_siblings]
    refine ⟨?_, ?_, ?_⟩ <;> intro extension h <;> simpa using congrArg String.toList h
  refine .directory (by decide) hname (fun e he _ _ extension _ => hstem e he extension) ?_
  rw [forall_mem_siblings]
  exact ⟨.file _, .file _, .file _⟩

/-- A working directory with the three files in the directory of components. -/
def siblingTree : FileTree := .directory [("components", .directory siblings)]

theorem siblingTree_target : siblingTree.target "components" = .ok (.directory siblings) := by
  have hfind : siblingTree.find .reading "components" = .ok (.below ["components"], 40) := by
    change siblingTree.follow .reading 40 .top ["components"] = _
    rw [FileTree.follow]
    change siblingTree.follow .reading 40 (.below ["components"]) [] = _
    rw [FileTree.follow]
  rw [FileTree.target, hfind]
  rfl

theorem siblings_below? {names : List String} {node : FileTree}
    (h : (FileTree.directory siblings).below? names = some node) :
    names ∈ [[], ["a.html"], ["a.tpl"], ["b.html"]] := by
  have hfile : ∀ {content rest}, (FileTree.file content).below? rest = some node → rest = [] := by
    intro content rest hbelow
    cases rest with
    | nil => rfl
    | cons => cases hbelow
  cases names with
  | nil => decide
  | cons name rest =>
      obtain ⟨child, hmem, hchild⟩ := (FileTree.below?_directory (by decide)).1 h
      have hrest : ∀ e ∈ siblings, e.2.below? rest = some node → rest = [] :=
        forall_mem_siblings.2 ⟨hfile, hfile, hfile⟩
      have hname : ∀ e ∈ siblings, [e.1] ∈ [[], ["a.html"], ["a.tpl"], ["b.html"]] :=
        forall_mem_siblings.2 (by decide)
      rw [hrest _ hmem hchild]
      exact hname _ hmem

/-- The accepted files among the siblings. -/
theorem siblings_accepted (h : f.Accepted siblingConfig (.directory siblings)) :
    f = ⟨[], "a", "html"⟩ ∨ f = ⟨[], "a", "tpl"⟩ ∨ f = ⟨[], "b", "html"⟩ := by
  obtain ⟨content, hbelow⟩ := h.file
  have hname := (isEntryName_of_accepted siblings_ordinary h).2
  have hof := ComponentFile.of?_names hname.notDots h.stem h.extension
  have hnames := siblings_below? hbelow
  simp only [List.mem_cons, List.not_mem_nil, or_false] at hnames
  obtain hnames | hnames | hnames | hnames := hnames <;> rw [hnames] at hof
  · cases hof
  · exact .inl (Option.some.inj hof).symm
  · exact .inr (.inl (Option.some.inj hof).symm)
  · exact .inr (.inr (Option.some.inj hof).symm)

theorem load_holds_files_siblings :
    ∃ registry, load siblingConfig siblingTree = .ok registry ∧
      registry.get? "a" = some (.ofSource "y") ∧ registry.get? "b" = some (.ofSource "z") ∧
      ∀ lexer : Lexer, ∃ left shared,
        loadSharing lexer siblingConfig siblingTree = .ok (left, shared) ∧
          shared.keys = registry.names := by
  obtain ⟨loads, _, holds⟩ := load_holds_files siblingConfig siblingTree siblings
    siblingTree_target siblings_ordinary
  have hsize : ∀ names node, (FileTree.directory siblings).below? names = some node →
      (Path.below siblingConfig.componentsDir names).utf8ByteSize ≤ Path.sizeLimit := by
    intro names node h
    have hshort : ∀ names ∈ [[], ["a.html"], ["a.tpl"], ["b.html"]],
        (Path.below siblingConfig.componentsDir names).utf8ByteSize ≤ Path.sizeLimit := by decide
    exact hshort names (siblings_below? h)
  obtain ⟨registry, hload⟩ := loads hsize
  obtain ⟨hholds, hshared⟩ := holds registry hload
  have ha : ComponentFile.Greatest siblingConfig (.directory siblings) ⟨[], "a", "tpl"⟩ := by
    refine ⟨⟨⟨_, rfl⟩, by decide, by decide, "tpl", by decide, 0, by decide⟩, ?_⟩
    intro g hg hsame
    obtain rfl | rfl | rfl := siblings_accepted hg
    · rw [utf8Bytes_le_iff]
      decide
    · exact List.le_refl _
    · exact absurd hsame (by decide)
  have hb : ComponentFile.Greatest siblingConfig (.directory siblings) ⟨[], "b", "html"⟩ := by
    refine ⟨⟨⟨_, rfl⟩, by decide, by decide, ".html", by decide, 1, by decide⟩, ?_⟩
    intro g hg hsame
    obtain rfl | rfl | rfl := siblings_accepted hg
    · exact absurd hsame (by decide)
    · exact absurd hsame (by decide)
    · exact List.le_refl _
  refine ⟨registry, hload, ?_, ?_, ?_⟩
  · exact (hholds.kept "a" _).2 ⟨_, "y", ha, by decide, rfl, rfl⟩
  · exact (hholds.kept "b" _).2 ⟨_, "z", hb, by decide, rfl, rfl⟩
  · intro lexer
    obtain ⟨left, shared, hresult, hkeys, _⟩ := hshared lexer
    exact ⟨left, shared, hresult, hkeys⟩

end Registry

end Stencil
