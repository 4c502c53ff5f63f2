import Mathlib.Data.List.Nodup
import Pagewright.Proofs.Dict
import Pagewright.Style.Utility

/-!
Lengths in pixels as classes. A length snaps to the least bound of its scale that is not below it,
as long as that stays within what the property allows; a longer one has no class.
-/

namespace Pagewright

namespace Scale

/-- A length takes the ending of a bound: the least one of the scale that is not below it. -/
structure Snaps (scale : Scale) (length bound : Int) (ending : String) : Prop where
  mem : (bound, ending) ∈ scale
  covers : length ≤ bound
  least : ∀ entry ∈ scale, length ≤ entry.1 → bound ≤ entry.1

def Ascends (scale : Scale) : Prop := scale.Pairwise fun a b => a.1 < b.1

instance (scale : Scale) : Decidable scale.Ascends :=
  inferInstanceAs (Decidable (scale.Pairwise fun a b => a.1 < b.1))

variable {scale : Scale} {greatest length bound : Int} {ending : String}

/-- The first bound is taken unless the length exceeds it. -/
theorem snaps_cons {first : Int × String} {rest : Scale} (h : Ascends (first :: rest)) :
    Snaps (first :: rest) length bound ending ↔
      if length ≤ first.1 then (bound, ending) = first else Snaps rest length bound ending := by
  have hrest (entry : Int × String) (hm : entry ∈ rest) : first.1 < entry.1 :=
    List.rel_of_pairwise_cons h hm
  split
  · next hfirst =>
    constructor
    · rintro ⟨hmem, -, hleast⟩
      refine (List.mem_cons.mp hmem).resolve_right fun hm => ?_
      exact absurd (hrest _ hm) (Int.not_lt.mpr (hleast first List.mem_cons_self hfirst))
    · rintro rfl
      refine ⟨List.mem_cons_self, hfirst, List.forall_mem_cons.mpr ⟨fun _ => Int.le_refl _, ?_⟩⟩
      exact fun entry hm _ => Int.le_of_lt (hrest entry hm)
  · next hfirst =>
    constructor
    · rintro ⟨hmem, hcovers, hleast⟩
      rcases List.mem_cons.mp hmem with rfl | hmem
      · exact absurd hcovers hfirst
      · exact ⟨hmem, hcovers, (List.forall_mem_cons.mp hleast).2⟩
    · rintro ⟨hmem, hcovers, hleast⟩
      exact ⟨List.mem_cons_of_mem _ hmem, hcovers,
        List.forall_mem_cons.mpr ⟨fun h => absurd h hfirst, hleast⟩⟩

/-- A length has an ending within a greatest bound exactly when the bound it snaps to is within. -/
theorem snap?_eq_some_iff (h : scale.Ascends) : scale.snap? greatest length = some ending ↔
    ∃ bound, scale.Snaps length bound ending ∧ bound ≤ greatest := by
  induction scale with
  | nil => exact iff_of_false nofun fun ⟨_, hsnaps, _⟩ => nomatch hsnaps.mem
  | cons first rest ih =>
    have hrest (entry : Int × String) (hm : entry ∈ rest) : first.1 < entry.1 :=
      List.rel_of_pairwise_cons h hm
    unfold snap? at ih ⊢
    by_cases hgreatest : first.1 ≤ greatest
    · rw [List.takeWhile_cons, if_pos (decide_eq_true hgreatest), List.find?_cons]
      simp only [snaps_cons h]
      by_cases hfirst : length ≤ first.1
      · simp only [hfirst, decide_true, if_true, Option.map_some, Option.some.injEq]
        constructor
        · rintro rfl
          exact ⟨first.1, rfl, hgreatest⟩
        · rintro ⟨_, rfl, -⟩
          rfl
      · simp only [hfirst, decide_false, if_false]
        exact ih h.of_cons
    · rw [List.takeWhile_cons, if_neg (by simpa using hgreatest)]
      refine iff_of_false nofun ?_
      rintro ⟨bound, hsnaps, hbound⟩
      rcases List.mem_cons.mp hsnaps.mem with rfl | hm
      · exact hgreatest hbound
      · exact hgreatest (Int.le_trans (Int.le_of_lt (hrest _ hm)) hbound)

/-- A length snaps to one ending. -/
theorem Snaps.ending_eq (h : scale.Ascends) {bound' : Int} {ending' : String}
    (hsnaps : scale.Snaps length bound ending) (hsnaps' : scale.Snaps length bound' ending') :
    ending = ending' := by
  have hle : bound' ≤ bound := hsnaps'.least _ hsnaps.mem hsnaps.covers
  have hfirst : scale.snap? bound length = some ending :=
    (snap?_eq_some_iff h).mpr ⟨bound, hsnaps, Int.le_refl bound⟩
  have hsecond : scale.snap? bound length = some ending' :=
    (snap?_eq_some_iff h).mpr ⟨bound', hsnaps', hle⟩
  exact Option.some.inj (hfirst.symm.trans hsecond)

/-- A length that some bound covers snaps to a bound. -/
theorem exists_snaps (h : scale.Ascends) {entry : Int × String} (hm : entry ∈ scale)
    (hcovers : length ≤ entry.1) : ∃ bound ending, scale.Snaps length bound ending := by
  induction scale with
  | nil => cases hm
  | cons first rest ih =>
    simp only [snaps_cons h]
    by_cases hfirst : length ≤ first.1
    · exact ⟨first.1, first.2, by rw [if_pos hfirst]⟩
    · simp only [if_neg hfirst]
      rcases List.mem_cons.mp hm with rfl | hm
      · exact absurd hcovers hfirst
      · exact ih h.of_cons hm

/-- Where the greatest bound is one of the scale, it decides which lengths have an ending. -/
theorem Snaps.le_iff (hsnaps : scale.Snaps length bound ending)
    (hgreatest : greatest ∈ scale.map Prod.fst) : bound ≤ greatest ↔ length ≤ greatest := by
  obtain ⟨entry, hm, rfl⟩ := List.mem_map.mp hgreatest
  exact ⟨fun h => Int.le_trans hsnaps.covers h, hsnaps.least entry hm⟩

end Scale

/-- A text that ends in the unit and begins with a whole number of pixels. -/
def InPixels (value : String) (length : Int) : Prop :=
  ['p', 'x'] <:+ value.toList ∧ leadingInt? value.toList = some length

theorem pixels?_eq_some_iff {value : String} {length : Int} :
    pixels? value = some length ↔ InPixels value length := by
  rw [pixels?, InPixels, ← List.isSuffixOf_iff_suffix]
  split
  · next h => exact (and_iff_right h).symm
  · next h => exact iff_of_false nofun fun hp => h hp.1

/-- A property whose value can be a length: the stem of its classes, the scale on which lengths
snap, and the greatest of them that has a class. -/
structure LengthUse where
  property : String
  stem : String
  scale : Scale
  greatest : Int
deriving DecidableEq

namespace LengthUse

def sizes : List LengthUse := [⟨"width", "w", sizeScale, 384⟩, ⟨"height", "h", sizeScale, 384⟩]

/-- Margin and padding on all sides, and the gap. -/
def allSides : List LengthUse :=
  [⟨"margin", "m", spacingScale, 384⟩, ⟨"padding", "p", spacingScale, 384⟩,
    ⟨"gap", "gap", spacingScale, 96⟩]

/-- Margins and paddings on one side. -/
def oneSided : List LengthUse :=
  sideStems.map fun (property, stem) => ⟨property, stem, spacingScale, 24⟩

def spacings : List LengthUse := allSides ++ oneSided

def all : List LengthUse := sizes ++ spacings

/-- The class that the property gets in a style map: on one side by itself, or else as every
declaration does. -/
def class? (u : LengthUse) (styles : Dict Scalar) : Option String :=
  if (u.property, u.stem) ∈ sideStems then sideClass? styles u.property u.stem
  else (styles.get? u.property).bind (propertyClass? u.property)

/-- The class with an ending. -/
def named (u : LengthUse) (ending : String) : String := u.stem ++ "-" ++ ending

/-- A style map gives the property a text that is neither a zero length nor one of the words for
lengths. -/
structure Declares (u : LengthUse) (styles : Dict Scalar) (value : String) : Prop where
  text : styles.get? u.property = some (.text value)
  notZero : isZeroLength value = false
  notAuto : value ≠ "auto"
  notFull : value ≠ "100%"

variable {u v : LengthUse} {styles others : Dict Scalar} {value other name : String}

theorem mem_classList (h : u.class? styles = some name) : name ∈ classList styles := by
  unfold class? at h
  split at h
  · next hside => exact List.mem_append_right _ (List.mem_filterMap.mpr ⟨_, hside, h⟩)
  · obtain ⟨value, hget, hclass⟩ := Option.bind_eq_some_iff.mp h
    obtain ⟨entry, hentry, rfl⟩ := Option.map_eq_some_iff.mp hget
    have hkey : entry.1 = u.property := by simpa using List.find?_some hentry
    have hmem : entry ∈ styles.entries := List.mem_of_find?_eq_some hentry
    refine List.mem_append_left _ (List.mem_filterMap.mpr ⟨entry, hmem, ?_⟩)
    rw [← hkey] at hclass
    exact hclass

/-- Declared as text, a size has its class as sizes do. -/
theorem class?_of_mem_sizes (hu : u ∈ sizes) (h : styles.get? u.property = some (.text value)) :
    u.class? styles = sizeClass? u.stem value := by
  have hside : ∀ u ∈ sizes, (u.property, u.stem) ∉ sideStems := by decide
  rw [class?, if_neg (hside u hu), h, Option.bind_some]
  simp only [sizes, List.mem_cons, List.not_mem_nil, or_false] at hu
  rcases hu with rfl | rfl <;> simp [propertyClass?, textClass?, Scalar.shown]

/-- Declared as text, a spacing has its class as spacings do. Only some of them can be automatic. -/
theorem class?_of_mem_spacings (hu : u ∈ spacings)
    (h : styles.get? u.property = some (.text value)) :
    ∃ allowsAuto, u.class? styles = spacingClass? u.stem value u.greatest allowsAuto := by
  rcases List.mem_append.mp hu with hu | hu
  · have hside : ∀ u ∈ allSides, (u.property, u.stem) ∉ sideStems := by decide
    rw [class?, if_neg (hside u hu), h, Option.bind_some]
    simp only [allSides, List.mem_cons, List.not_mem_nil, or_false] at hu
    rcases hu with rfl | rfl | rfl
    · exact ⟨true, by simp [propertyClass?, textClass?, Scalar.shown, widestBound]⟩
    · exact ⟨false, by simp [propertyClass?, textClass?, Scalar.shown, widestBound]⟩
    · exact ⟨false, by simp [propertyClass?, textClass?, Scalar.shown, gapBound]⟩
  · obtain ⟨side, hside, rfl⟩ := List.mem_map.mp hu
    refine ⟨true, ?_⟩
    rw [class?, if_pos hside, sideClass?, h, Option.bind_some, Scalar.asText?, Option.bind_some,
      sideBound]

theorem class?_zero (hu : u ∈ all) (h : styles.get? u.property = some (.text value))
    (hzero : isZeroLength value) : u.class? styles = some (u.named "0") := by
  have hname : u.named "0" = u.stem ++ "-0" := by
    rw [named, String.append_assoc]
    rfl
  rw [hname]
  rcases List.mem_append.mp hu with hu | hu
  · rw [class?_of_mem_sizes hu h, sizeClass?, if_pos hzero]
  · obtain ⟨allowsAuto, hclass⟩ := class?_of_mem_spacings hu h
    rw [hclass, spacingClass?, if_pos hzero]

theorem scale_of_mem_spacings (hu : u ∈ spacings) : u.scale = spacingScale := by
  have hscale : ∀ u ∈ spacings, u.scale = spacingScale := by decide
  exact hscale u hu

theorem Declares.class?_eq (h : u.Declares styles value) (hu : u ∈ all) :
    u.class? styles = ((pixels? value).bind (u.scale.snap? u.greatest)).map u.named := by
  obtain ⟨htext, hzero, hauto, hfull⟩ := h
  rcases List.mem_append.mp hu with hu | hu
  · have hscale : ∀ u ∈ sizes, u.scale = sizeScale ∧ u.greatest = widestBound := by decide
    obtain ⟨hscale, hgreatest⟩ := hscale u hu
    rw [class?_of_mem_sizes hu htext, sizeClass?, if_neg (Bool.eq_false_iff.mp hzero), if_neg hauto,
      if_neg hfull, hscale, hgreatest]
    rfl
  · obtain ⟨allowsAuto, hclass⟩ := class?_of_mem_spacings hu htext
    rw [hclass, spacingClass?, if_neg (Bool.eq_false_iff.mp hzero), if_neg (by simp [hauto]),
      scale_of_mem_spacings hu]
    rfl

/-- Every scale in use ascends, has no ending twice, and is left at one of its bounds. -/
theorem scale_of_mem_all (hu : u ∈ all) : u.scale.Ascends ∧ (u.scale.map Prod.snd).Nodup ∧
    u.greatest ∈ u.scale.map Prod.fst := by
  have hscales : ∀ scale ∈ [sizeScale, spacingScale],
      scale.Ascends ∧ (scale.map Prod.snd).Nodup := by decide
  have huses : ∀ u ∈ all, u.scale ∈ [sizeScale, spacingScale] ∧
      u.greatest ∈ u.scale.map Prod.fst := by decide
  obtain ⟨hscale, hgreatest⟩ := huses u hu
  obtain ⟨hascends, hendings⟩ := hscales u.scale hscale
  exact ⟨hascends, hendings, hgreatest⟩

/-- A length has a class exactly when it is not beyond the greatest one, and then that of the bound
to which it snaps. -/
theorem Declares.class?_eq_some_iff (h : u.Declares styles value) (hu : u ∈ all) :
    u.class? styles = some name ↔ ∃ length bound ending, InPixels value length ∧
      length ≤ u.greatest ∧ u.scale.Snaps length bound ending ∧ name = u.named ending := by
  obtain ⟨hascends, -, hgreatest⟩ := scale_of_mem_all hu
  rw [h.class?_eq hu, Option.map_eq_some_iff]
  simp only [Option.bind_eq_some_iff, pixels?_eq_some_iff, Scale.snap?_eq_some_iff hascends]
  constructor
  · rintro ⟨ending, ⟨length, hlength, bound, hsnaps, hbound⟩, rfl⟩
    exact ⟨length, bound, ending, hlength, (hsnaps.le_iff hgreatest).mp hbound, hsnaps, rfl⟩
  · rintro ⟨length, bound, ending, hlength, hle, hsnaps, rfl⟩
    exact ⟨ending, ⟨length, hlength, bound, hsnaps, (hsnaps.le_iff hgreatest).mpr hle⟩, rfl⟩

theorem Declares.exists_class_iff (h : u.Declares styles value) (hu : u ∈ all) :
    (∃ name, u.class? styles = some name) ↔
      ∃ length, InPixels value length ∧ length ≤ u.greatest := by
  obtain ⟨hascends, -, hgreatest⟩ := scale_of_mem_all hu
  obtain ⟨entry, hm, hentry⟩ := List.mem_map.mp hgreatest
  simp only [h.class?_eq_some_iff hu]
  constructor
  · rintro ⟨name, length, -, -, hlength, hle, -, -⟩
    exact ⟨length, hlength, hle⟩
  · rintro ⟨length, hlength, hle⟩
    obtain ⟨bound, ending, hsnaps⟩ := Scale.exists_snaps hascends hm (hentry ▸ hle)
    exact ⟨u.named ending, length, bound, ending, hlength, hle, hsnaps, rfl⟩

theorem named_inj {ending ending' : String} (h : u.named ending = u.named ending') :
    ending = ending' := by
  have htext := congrArg String.toList h
  simp only [named, String.toList_append, List.append_cancel_left_eq] at htext
  exact String.toList_inj.mp htext

/-- The bound of a class is the one to which the length snaps. -/
theorem Declares.snaps_of_class? (h : u.Declares styles value) (hu : u ∈ all) {length : Int}
    (hlength : InPixels value length) {entry : Int × String} (hentry : entry ∈ u.scale)
    (hclass : u.class? styles = some (u.named entry.2)) :
    u.scale.Snaps length entry.1 entry.2 := by
  obtain ⟨length', bound, ending, hlength', -, hsnaps, hname⟩ := (h.class?_eq_some_iff hu).mp hclass
  obtain rfl := Option.some.inj (hlength.2.symm.trans hlength'.2)
  have hsame : (bound, ending) = entry :=
    List.inj_on_of_nodup_map (scale_of_mem_all hu).2.1 hsnaps.mem hentry (named_inj hname).symm
  rwa [← hsame]

/-- A text that is neither a zero length nor a word for a length has a class exactly when it is a
length in pixels that is not beyond the greatest one of the property, and the class is that of the
least bound that is not below it. So a longer length never has a smaller bound, and all spacings
have the same ending for a text. A zero length ends in zero everywhere. -/
theorem lengths_snap_to_bounds :
    (∀ u ∈ all, ∀ styles value, u.Declares styles value →
      ((∃ name, u.class? styles = some name) ↔
        ∃ length, InPixels value length ∧ length ≤ u.greatest) ∧
      ∀ name, u.class? styles = some name → name ∈ classList styles ∧
        ∃ length bound ending, InPixels value length ∧ u.scale.Snaps length bound ending ∧
          name = u.named ending) ∧
    (∀ u ∈ all, ∀ v ∈ all, u.scale = v.scale → ∀ styles others value other,
      u.Declares styles value → v.Declares others other → ∀ short long,
        InPixels value short → InPixels other long → short ≤ long →
        ∀ small ∈ u.scale, u.class? styles = some (u.named small.2) →
        ∀ large ∈ v.scale, v.class? others = some (v.named large.2) → small.1 ≤ large.1) ∧
    (∀ u ∈ spacings, ∀ v ∈ spacings, ∀ styles others value,
      u.Declares styles value → v.Declares others value → ∀ name name',
        u.class? styles = some name → v.class? others = some name' →
        ∃ ending, name = u.named ending ∧ name' = v.named ending) ∧
    ∀ u ∈ all, ∀ styles value, styles.get? u.property = some (.text value) →
      isZeroLength value → u.class? styles = some (u.named "0") := by
  refine ⟨fun u hu styles value h => ⟨h.exists_class_iff hu, fun name hname => ?_⟩, ?_, ?_,
    fun u hu styles value => class?_zero hu⟩
  · obtain ⟨length, bound, ending, hlength, -, hsnaps, rfl⟩ := (h.class?_eq_some_iff hu).mp hname
    exact ⟨mem_classList hname, length, bound, ending, hlength, hsnaps, rfl⟩
  · intro u hu v hv hscale styles others value other h h' short long hshort hlong hle small hsmall
      hclass large hlarge hclass'
    have hsnaps := h.snaps_of_class? hu hshort hsmall hclass
    have hsnaps' := h'.snaps_of_class? hv hlong hlarge hclass'
    exact hsnaps.least large (hscale ▸ hlarge) (Int.le_trans hle hsnaps'.covers)
  · intro u hu v hv styles others value h h' name name' hname hname'
    have hmem : spacings ⊆ all := List.subset_append_right _ _
    obtain ⟨length, bound, ending, hlength, -, hsnaps, rfl⟩ :=
      (h.class?_eq_some_iff (hmem hu)).mp hname
    obtain ⟨length', bound', ending', hlength', -, hsnaps', rfl⟩ :=
      (h'.class?_eq_some_iff (hmem hv)).mp hname'
    obtain rfl := Option.some.inj (hlength.2.symm.trans hlength'.2)
    rw [scale_of_mem_spacings hu] at hsnaps
    rw [scale_of_mem_spacings hv] at hsnaps'
    obtain rfl := hsnaps.ending_eq (by decide) hsnaps'
    exact ⟨ending, rfl, rfl⟩

/-- The lengths of a panel. Its gap is too long to have a class. -/
private def panelStyles : Dict Scalar :=
  .ofList [("width", .text "13.5px"), ("margin", .text "97px"), ("padding", .text "21px"),
    ("gap", .text "97px"), ("paddingTop", .text "21px"), ("paddingLeft", .text "0rem")]

theorem panel_lengths_snap :
    classList panelStyles = ["w-4", "m-28", "p-6", "pt-6", "pl-0"] ∧
    (∃ length bound ending, InPixels "13.5px" length ∧ sizeScale.Snaps length bound ending ∧
      "w-4" = "w-" ++ ending) ∧
    ¬ (∃ name, (⟨"gap", "gap", spacingScale, 96⟩ : LengthUse).class? panelStyles = some name) ∧
    (24, "6") ∈ spacingScale ∧ (112, "28") ∈ spacingScale ∧ (24 : Int) ≤ 112 ∧
    (∃ ending, "p-6" = "p-" ++ ending ∧ "pt-6" = "pt-" ++ ending) ∧
    (⟨"paddingLeft", "pl", spacingScale, 24⟩ : LengthUse).class? panelStyles = some "pl-0" := by
  have declares (u : LengthUse) (value : String)
      (htext : panelStyles.get? u.property = some (.text value))
      (hvalue : isZeroLength value = false ∧ value ≠ "auto" ∧ value ≠ "100%") :
      u.Declares panelStyles value := ⟨htext, hvalue.1, hvalue.2.1, hvalue.2.2⟩
  have width := declares ⟨"width", "w", sizeScale, 384⟩ "13.5px" rfl (by decide)
  have margin := declares ⟨"margin", "m", spacingScale, 384⟩ "97px" rfl (by decide)
  have padding := declares ⟨"padding", "p", spacingScale, 384⟩ "21px" rfl (by decide)
  have top := declares ⟨"paddingTop", "pt", spacingScale, 24⟩ "21px" rfl (by decide)
  have gap := declares ⟨"gap", "gap", spacingScale, 96⟩ "97px" rfl (by decide)
  have h21 : InPixels "21px" 21 := ⟨by decide, by decide⟩
  have h97 : InPixels "97px" 97 := ⟨by decide, by decide⟩
  obtain ⟨hone, horder, hsame, hzero⟩ := lengths_snap_to_bounds
  refine ⟨by decide +kernel, ?size, ?beyond, by decide, by decide, ?order, ?same, ?zero⟩
  case size => exact ((hone _ (by decide) _ _ width).2 "w-4" (by decide +kernel)).2
  case beyond =>
    rw [(hone _ (by decide) _ _ gap).1]
    rintro ⟨length, hlength, hle⟩
    obtain rfl := Option.some.inj (hlength.2.symm.trans h97.2)
    exact absurd hle (by decide)
  case order =>
    exact horder ⟨"padding", "p", spacingScale, 384⟩ (by decide) ⟨"margin", "m", spacingScale, 384⟩
      (by decide) rfl _ _ _ _ padding margin 21 97 h21 h97 (by decide) (24, "6") (by decide)
      (by decide +kernel) (112, "28") (by decide) (by decide +kernel)
  case same =>
    exact hsame _ (by decide) _ (by decide) _ _ _ padding top _ _ (by decide +kernel)
      (by decide +kernel)
  case zero => exact hzero _ (by decide) panelStyles "0rem" rfl (by decide)

end LengthUse

end Pagewright
