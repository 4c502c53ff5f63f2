import Pagewright.Proofs.Command.Store
import Pagewright.Proofs.Json.Equality
import Pagewright.Proofs.Page.Acceptance
import Pagewright.Proofs.Page.KeyframeOrder
import Pagewright.Proofs.Site.Paths

/-!
One page, two commands. A page can be generated on its own or as the only page of a project. The
two commands give the same source exactly when no visible element shows states that depend on the
order in which keyframes are written down.
-/

namespace Pagewright

namespace FileAccess

variable {formatting : Formatting} {store after : Dict String} {p : Page} {s : Site}
  {animations : List Animation} {backend : Backend} {source output : String}

private theorem loadPage_ofStore {pagePath : String}
    (hpage : Records store pagePath Decoder.page p) :
    (ofStore.loadPage pagePath).run.run store =
      ((p.validate.map fun _ => p).mapError fun _ => .invalidPage pagePath, store) := by
  unfold loadPage
  rw [run_bind, load_ofStore hpage]
  dsimp only
  cases p.validate <;> rfl

theorem perform_page_iff {pagePath animationsPath : String}
    (hpage : Records store pagePath Decoder.page p)
    (hanimations : Records store animationsPath (Decoder.list Decoder.animation) animations) :
    (ofStore.perform formatting (.page pagePath (some animationsPath) backend none)).run.run store =
        (.ok source, store) ↔
      p.validate = .ok () ∧ p.standalone formatting animations backend = .ok source := by
  unfold perform
  dsimp only
  rw [run_bind, loadPage_ofStore hpage]
  cases p.validate with
  | error fault => exact iff_of_false nofun nofun
  | ok _ =>
    dsimp only [Except.map, Except.mapError]
    rw [run_bind, load_ofStore hanimations]
    dsimp only
    cases p.standalone formatting animations backend with
    | error fault => exact iff_of_false nofun nofun
    | ok made =>
      constructor
      · intro h
        obtain rfl : made = source := Except.ok.inj (congrArg Prod.fst h)
        exact ⟨rfl, rfl⟩
      · rintro ⟨-, h⟩
        obtain rfl := Except.ok.inj h
        rfl

theorem perform_project_iff {sitePath folder : String}
    (hsite : Records store sitePath Decoder.site s) :
    (ofStore.perform formatting (.project sitePath folder)).run.run store = (.ok output, after) ↔
      ∃ files, s.project formatting = .ok files ∧ output = "" ∧
        after = stored folder store files := by
  unfold perform
  dsimp only
  rw [run_bind, load_ofStore hsite]
  dsimp only
  cases s.project formatting with
  | error fault => exact iff_of_false nofun nofun
  | ok files =>
    change ((ofStore.writeProject folder files >>= fun _ => pure "").run.run store) = _ ↔ _
    rw [run_bind, writeProject_ofStore]
    constructor
    · intro h
      obtain rfl : "" = output := Except.ok.inj (congrArg Prod.fst h)
      exact ⟨files, rfl, rfl, (congrArg Prod.snd h).symm⟩
    · rintro ⟨_, h, rfl, rfl⟩
      obtain rfl := Except.ok.inj h
      rfl

end FileAccess

theorem Page.withRouteConfig_injective (p : Page) : Function.Injective p.withRouteConfig := by
  intro a b h
  unfold withRouteConfig at h
  split at h
  · exact h
  · have h := congrArg String.toList h
    simp only [String.toList_append, List.append_left_inj] at h
    exact String.toList_injective h

namespace Site

/-- A site of one page, whose animations are motion props. -/
def single (name slug : String) (p : Page) (animations : List Animation) : Site :=
  ⟨name, slug, false, .motion, [p], animations⟩

variable {p : Page} {animations : List Animation} {formatting : Formatting} {name slug : String}
  {files : List SourceFile}

private theorem pageOptions_single
    (hlive : ∀ a ∈ animations, ∃ e ∈ Forest.preorder p.layout, e.id = a.elementId) :
    (single name slug p animations).pageOptions p = ⟨animations, .motion, [], []⟩ := by
  have hall : (single name slug p animations).animationsFor p = animations := by
    refine List.filter_eq_self.mpr fun a ha => ?_
    simpa using hlive a ha
  rw [pageOptions, hall]
  unfold PageOptions.ofAnimations
  simp [single]

theorem project_single_iff (hvalid : p.validate = .ok ()) (hslug : isSlug slug)
    (hids : ∀ a ∈ animations, isAnimationId a.id)
    (hlive : ∀ a ∈ animations, ∃ e ∈ Forest.preorder p.layout, e.id = a.elementId) :
    (single name slug p animations).project formatting = .ok files ↔
      ∃ source, p.source formatting ⟨animations, .motion, [], []⟩ = .ok source ∧
        files = [⟨p.directory ++ "/page.tsx", p.withRouteConfig source⟩,
          ⟨"package.json", (single name slug p animations).manifest⟩] := by
  rw [project_single_eq_ok_iff (rfl : (single name slug p animations).pages = [p]) rfl hslug hids
    hvalid, pageOptions_single hlive]
  rfl

end Site

namespace FileAccess

/-- Three files with a page, with animations that live on it, and with the site of that page. -/
structure RecordsSingle (store : Dict String) (pagePath animationsPath sitePath : String)
    (p : Page) (animations : List Animation) : Prop where
  pageFile : Records store pagePath Decoder.page p
  animationsFile : Records store animationsPath (Decoder.list Decoder.animation) animations
  siteFile : ∃ name slug, isSlug slug ∧
    Records store sitePath Decoder.site (.single name slug p animations)
  ids : ∀ a ∈ animations, isAnimationId a.id
  live : ∀ a ∈ animations, ∃ e ∈ Forest.preorder p.layout, e.id = a.elementId

/-- A page with motion props is generated on its own: the run prints its source. -/
def PageReturns (store : Dict String) (limit : Option Nat) (pagePath animationsPath : String)
    (source : String) : Prop :=
  (ofStore.perform ⟨tidyFormatter, limit⟩
    (.page pagePath (some animationsPath) .motion none)).run.run store = (.ok source, store)

/-- A project is generated into a folder: the run leaves a file with a content there. -/
def ProjectStores (store : Dict String) (limit : Option Nat) (sitePath folder : String)
    (path content : String) : Prop :=
  ∃ after, (ofStore.perform ⟨tidyFormatter, limit⟩ (.project sitePath folder)).run.run store =
      (.ok "", after) ∧
    after.get? (pathIn folder path) = some content

section Agreement

variable {store : Dict String} {p : Page} {animations : List Animation} {limit : Option Nat}
  {pagePath animationsPath sitePath folder source : String}

/-- A page on its own gets its keyframes put in order first. -/
theorem pageReturns_iff (h : RecordsSingle store pagePath animationsPath sitePath p animations) :
    PageReturns store limit pagePath animationsPath source ↔
      p.validate = .ok () ∧
        p.source ⟨tidyFormatter, limit⟩ ⟨animations.map Animation.sorted, .motion, [], []⟩ =
          .ok source := by
  rw [PageReturns, perform_page_iff h.pageFile h.animationsFile, Page.standalone,
    mapError_eq_ok_iff]
  rfl

/-- A page in a project keeps its keyframes as they are. -/
theorem projectStores_iff (h : RecordsSingle store pagePath animationsPath sitePath p animations)
    (hvalid : p.validate = .ok ()) :
    ProjectStores store limit sitePath folder (p.directory ++ "/page.tsx")
        (p.withRouteConfig source) ↔
      p.source ⟨tidyFormatter, limit⟩ ⟨animations, .motion, [], []⟩ = .ok source := by
  obtain ⟨name, slug, hslug, hsite⟩ := h.siteFile
  have hpaths : p.directory ++ "/page.tsx" ≠ "package.json" := by
    have h := p.directory_append_ne_manifest "page.tsx"
    rwa [String.append_assoc] at h
  have hstored (content : String) : (stored folder store
      [⟨p.directory ++ "/page.tsx", content⟩, ⟨"package.json",
        (Site.single name slug p animations).manifest⟩]).get?
      (pathIn folder (p.directory ++ "/page.tsx")) = some content :=
    stored_get? (by simpa using hpaths) List.mem_cons_self
  constructor
  · rintro ⟨after, hproject, hafter⟩
    obtain ⟨files, hfiles, -, rfl⟩ := (perform_project_iff hsite).mp hproject
    obtain ⟨made, hmade, rfl⟩ := (Site.project_single_iff hvalid hslug h.ids h.live).mp hfiles
    rw [hstored] at hafter
    obtain rfl := p.withRouteConfig_injective (Option.some.inj hafter)
    exact hmade
  · intro hmade
    have hproject : (Site.single name slug p animations).project ⟨tidyFormatter, limit⟩ = .ok _ :=
      (Site.project_single_iff hvalid hslug h.ids h.live).mpr ⟨source, hmade, rfl⟩
    exact ⟨_, (perform_project_iff hsite).mpr ⟨_, hproject, rfl, rfl⟩, hstored _⟩

/-- Keyframes that are written down in order make no difference between the two. -/
theorem projectStores_of_isSorted
    (h : RecordsSingle store pagePath animationsPath sitePath p animations)
    (hsorted : ∀ a ∈ animations, a.IsSorted)
    (hreturns : PageReturns store limit pagePath animationsPath source) :
    ProjectStores store limit sitePath folder (p.directory ++ "/page.tsx")
      (p.withRouteConfig source) := by
  obtain ⟨hvalid, hordered⟩ := (pageReturns_iff h).mp hreturns
  have hsame : animations.map Animation.sorted = animations := by
    rw [List.map_congr_left fun a ha => Animation.sorted_eq_self (hsorted a ha), List.map_id']
  rw [hsame] at hordered
  exact (projectStores_iff h hvalid).mpr hordered

/-- The project has for the page what the page returns on its own, followed by the setting of its
mode, exactly when no visible element shows states that depend on the order in which keyframes are
written down. -/
theorem commands_agree_iff
    (h : RecordsSingle store pagePath animationsPath sitePath p animations)
    (hreturns : PageReturns store limit pagePath animationsPath source) :
    ProjectStores store limit sitePath folder (p.directory ++ "/page.tsx")
        (p.withRouteConfig source) ↔
      ∀ e ∈ Forest.visible p.layout, e.kind ≠ .image →
        ∀ a ∈ shownAnimation? animations e.id, a.KeepsStates := by
  obtain ⟨hvalid, hordered⟩ := (pageReturns_iff h).mp hreturns
  rw [projectStores_iff h hvalid]
  exact Page.source_sorted_iff hordered

end Agreement

section Solo

variable {time : Nat}

/-- A page with one text. -/
def soloPage : Page :=
  { Page.bare "p1" "Home" "home" with layout := [Element.bare "hero" .text] }

/-- An animation of one second that is full at a time, which is written down before its start. -/
def soloAnimation (time : Nat) : Animation :=
  { Animation.bare "fade" "hero" .entry with
    tracks := [⟨"rise", "hero", "opacity",
      [.ofValue "k1" (.ofInt time) (.number 1), .ofValue "k0" 0 (.number 0)], ""⟩] }

def soloPageDocument : Json :=
  .array [.string "p1", .string "Home", .string "home", .string "STATIC", .null,
    .array [.array [.string "hero", .string "text"]]]

def soloAnimationDocument (time : Nat) : Json :=
  .array [.string "fade", .string "hero", .string "entry animation", .string "entry",
    .array [.array [.string "rise", .string "hero", .string "opacity",
      .array [.array [.string "k1", .int time, .object [("value", .int 1)]],
        .array [.string "k0", .int 0, .object [("value", .int 0)]]]]],
    .int 1000]

def soloSiteDocument (time : Nat) : Json :=
  .array [.string "Solo", .string "solo", .bool false, .string "framerMotion",
    .array [soloPageDocument], .array [soloAnimationDocument time]]

def soloPageText : String :=
  "[\"p1\",\"Home\"," ++ "\"home\"," ++ "\"STATIC\",null," ++ "[[\"hero\",\"text\"]]]"

def soloAnimationText (time : Nat) : String :=
  "[\"fade\",\"hero\"," ++ "\"entry animation\"," ++ "\"entry\",[" ++ "[\"rise\",\"hero\"," ++
    "\"opacity\",[" ++ "[\"k1\"," ++ toString time ++ ",\x7b\"value\":1\x7d]," ++ "[\"k0\",0," ++
    "\x7b\"value\":0\x7d]]]]" ++ ",1000]"

def soloSiteText (time : Nat) : String :=
  "[\"Solo\"," ++ "\"solo\",false," ++ "\"framerMotion\"," ++ "[" ++ soloPageText ++ "],[" ++
    soloAnimationText time ++ "]]"

def soloStore (time : Nat) : Dict String :=
  ((Dict.empty.insert "page.json" soloPageText).insert
    "animations.json" ("[" ++ soloAnimationText time ++ "]")).insert "site.json" (soloSiteText time)

private theorem page_soloPageDocument (limit : Nat) :
    Decoder.page (limit + 5) soloPageDocument = some soloPage := rfl

private theorem animation_soloAnimationDocument (limit time : Nat) :
    Decoder.animation (limit + 7) (soloAnimationDocument time) = some (soloAnimation time) := rfl

private theorem site_soloSiteDocument (time : Nat) :
    Decoder.site nestingLimit (soloSiteDocument time) =
      some (.single "Solo" "solo" soloPage [soloAnimation time]) := by
  have hbackend : Decoder.named Backend.all Backend.name 126 (.string "framerMotion") =
      some .motion := rfl
  have hpages : Decoder.list Decoder.page 126 (.array [soloPageDocument]) = some [soloPage] := by
    simp [Decoder.list, page_soloPageDocument 120]
  have hanimations : Decoder.list Decoder.animation 126 (.array [soloAnimationDocument time]) =
      some [soloAnimation time] := by
    simp [Decoder.list, animation_soloAnimationDocument 118]
  simp [Decoder.site, nestingLimit, soloSiteDocument, Decoder.slots?, siteFields, Decoder.required,
    Decoder.optional, Decoder.string, Decoder.bool, hbackend, hpages, hanimations, Site.single]

private theorem soloPage_recorded (time : Nat) :
    Records (soloStore time) "page.json" Decoder.page soloPage := by
  have hparse : Json.parse? soloPageText = some soloPageDocument := by
    unfold Json.parse? soloPageText
    simp only [String.toList_append]
    decide +kernel
  refine ⟨soloPageText, by simp [soloStore, Dict.get?_insert], ?_⟩
  rw [Decoder.read?, hparse]
  exact page_soloPageDocument 122

private theorem soloAnimation_recorded (h : time = 500 ∨ time = 1000) :
    Records (soloStore time) "animations.json" (Decoder.list Decoder.animation)
      [soloAnimation time] := by
  have hparse : Json.parse? ("[" ++ soloAnimationText time ++ "]") =
      some (.array [soloAnimationDocument time]) := by
    unfold Json.parse? soloAnimationText
    simp only [String.toList_append]
    rcases h with rfl | rfl <;> decide +kernel
  refine ⟨"[" ++ soloAnimationText time ++ "]", by simp [soloStore, Dict.get?_insert], ?_⟩
  rw [Decoder.read?, hparse]
  simp [Decoder.list, nestingLimit, animation_soloAnimationDocument 119]

private theorem soloSite_recorded (h : time = 500 ∨ time = 1000) :
    Records (soloStore time) "site.json" Decoder.site
      (.single "Solo" "solo" soloPage [soloAnimation time]) := by
  have hparse : Json.parse? (soloSiteText time) = some (soloSiteDocument time) := by
    unfold Json.parse? soloSiteText soloPageText soloAnimationText
    simp only [String.toList_append]
    rcases h with rfl | rfl <;> decide +kernel
  refine ⟨soloSiteText time, by simp [soloStore, Dict.get?_insert], ?_⟩
  rw [Decoder.read?, hparse]
  exact site_soloSiteDocument time

/-- The animation with its keyframes in order. -/
private theorem sorted_soloAnimation (h : time = 500 ∨ time = 1000) :
    (soloAnimation time).sorted = { Animation.bare "fade" "hero" .entry with
      tracks := [⟨"rise", "hero", "opacity",
        [.ofValue "k0" 0 (.number 0), .ofValue "k1" (.ofInt time) (.number 1)], ""⟩] } := by
  have hlate : (Number.ofInt time).precedes 0 = false := by
    rcases h with rfl | rfl <;> rfl
  have hsort : Keyframe.sort
      [.ofValue "k1" (.ofInt time) (.number 1), .ofValue "k0" 0 (.number 0)] =
      [.ofValue "k0" 0 (.number 0), .ofValue "k1" (.ofInt time) (.number 1)] := by
    simp [Keyframe.sort, List.mergeSort, List.MergeSort.Internal.splitInTwo,
      Keyframe.ofValue, hlate]
  simp only [Animation.sorted, soloAnimation, List.map_cons, List.map_nil, Track.sorted, hsort]

private theorem soloPage_isSelfContained (animations : List Animation) :
    soloPage.IsSelfContained ⟨animations, .motion, [], []⟩ where
  valid := rfl
  keys := nofun
  plain := by
    intro e he
    rw [List.mem_singleton.mp he]
    exact Bool.false_ne_true
  imports := rfl
  mounts := rfl

private theorem solo_recorded (h : time = 500 ∨ time = 1000) :
    RecordsSingle (soloStore time) "page.json" "animations.json" "site.json" soloPage
      [soloAnimation time] where
  pageFile := soloPage_recorded time
  animationsFile := soloAnimation_recorded h
  siteFile := ⟨"Solo", "solo", by decide, soloSite_recorded h⟩
  ids := List.forall_mem_singleton.mpr (by decide : isAnimationId "fade")
  live := List.forall_mem_singleton.mpr ⟨_, List.mem_cons_self, rfl⟩

private theorem soloPage_returns (h : time = 500 ∨ time = 1000) :
    ∃ source, PageReturns (soloStore time) none "page.json" "animations.json" source := by
  have hcontained := soloPage_isSelfContained [(soloAnimation time).sorted]
  obtain ⟨source, hsource⟩ := Page.source_builtIn_ok hcontained (by
    intro e he value hvalue
    rw [List.mem_singleton.mp he] at hvalue
    rw [List.mem_singleton.mp hvalue]
    decide)
  exact ⟨source, (pageReturns_iff (solo_recorded h)).mpr ⟨hcontained.valid, hsource⟩⟩

private theorem soloAnimation_keeps : (soloAnimation 1000).KeepsStates := by
  rw [Animation.KeepsStates, sorted_soloAnimation (.inr rfl)]
  decide +kernel

private theorem soloAnimation_loses : ¬ (soloAnimation 500).KeepsStates := by
  rw [Animation.KeepsStates, sorted_soloAnimation (.inl rfl)]
  decide +kernel

/-- An animation that is full at its end may be written down in any order. -/
theorem solo_commands_agree : ∃ source,
    PageReturns (soloStore 1000) none "page.json" "animations.json" source ∧
      ProjectStores (soloStore 1000) none "site.json" "out" "app/home/page.tsx" source := by
  obtain ⟨source, hreturns⟩ := soloPage_returns (.inr rfl)
  refine ⟨source, hreturns, (commands_agree_iff (solo_recorded (.inr rfl)) hreturns).mpr ?_⟩
  intro e he _ a ha
  rw [List.mem_singleton.mp he] at ha
  obtain rfl := Option.some.inj ha
  exact soloAnimation_keeps

/-- An animation that is full before its end, and whose start is written down last, ends full in the
page on its own and empty in the project. -/
theorem commands_disagree_on_unordered_keyframes :
    RecordsSingle (soloStore 500) "page.json" "animations.json" "site.json" soloPage
      [soloAnimation 500] ∧
    ∃ source, PageReturns (soloStore 500) none "page.json" "animations.json" source ∧
      ¬ ProjectStores (soloStore 500) none "site.json" "out" "app/home/page.tsx" source := by
  have hsolo := solo_recorded (.inl rfl)
  obtain ⟨source, hreturns⟩ := soloPage_returns (.inl rfl)
  obtain ⟨hvalid, hordered⟩ := (pageReturns_iff hsolo).mp hreturns
  refine ⟨hsolo, source, hreturns, fun hstores => ?_⟩
  have hunordered : soloPage.source ⟨tidyFormatter, none⟩ ⟨[soloAnimation 500], .motion, [], []⟩ =
      .ok source := (projectStores_iff hsolo hvalid).mp hstores
  exact soloAnimation_loses
    ((Page.source_sorted_iff hordered).mp hunordered _ List.mem_cons_self nofun _ rfl)

end Solo

end FileAccess

end Pagewright
