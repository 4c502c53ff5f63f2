import Pagewright.Proofs.Animation.Declarations
import Pagewright.Proofs.Json.Balance

/-!
The text of a keyframes rule, line by line. Read back from its lines the rule has the buckets of the
animation, each with its percentage and its declarations.
-/

namespace Pagewright

/-- What a line has between a beginning and an end. -/
def between? (opening closing line : String) : Option String :=
  ((line.toList.dropPrefix? opening.toList).bind (·.dropSuffix? closing.toList)).map String.ofList

theorem between?_eq_some_iff {opening closing line middle : String} :
    between? opening closing line = some middle ↔ line = opening ++ middle ++ closing := by
  simp only [between?, Option.map_eq_some_iff, Option.bind_eq_some_iff,
    List.dropPrefix?_eq_some_iff, List.dropSuffix?_eq_some_iff, beq_iff_eq]
  constructor
  · rintro ⟨_, ⟨rest, ⟨_, hline, rfl⟩, _, hrest, rfl⟩, rfl⟩
    rw [← String.toList_inj, hline, hrest]
    simp [List.append_assoc]
  · rintro rfl
    refine ⟨middle.toList, ⟨middle.toList ++ closing.toList, ⟨_, ?_, rfl⟩, _, rfl, rfl⟩, ?_⟩
    · simp [List.append_assoc]
    · exact String.ofList_toList

/-- Reads the blocks of a keyframes rule from its lines, each with its percentage and declarations,
up to the brace that closes the rule. The given block is the one around the next line, if it is
in one. -/
def readBlocks : Option (String × List String) → List String → Option (List (String × List String))
  | _, [] => none
  | none, line :: rest =>
    if line = "\x7d" then if rest = [""] then some [] else none
    else do
      let percent ← between? "  " "% \x7b" line
      readBlocks (some (percent, [])) rest
  | some (percent, declarations), line :: rest =>
    if line = "  \x7d" then (readBlocks none rest).map ((percent, declarations) :: ·)
    else do
      let declaration ← between? "    " ";" line
      readBlocks (some (percent, declarations ++ [declaration])) rest

/-- Reads the name and the blocks of a keyframes rule. -/
def readRule (text : String) : Option (String × List (String × List String)) :=
  match (text.toList.splitOn '\n').map String.ofList with
  | [] => none
  | first :: rest => do
    let name ← between? "@keyframes " " \x7b" first
    let blocks ← readBlocks none rest
    some (name, blocks)

/-- The line that declares a value. -/
def declarationLine (property value : String) : String :=
  "    " ++ property ++ ": " ++ value ++ ";"

/-- The lines of a bucket: its percentage, and the declarations between braces. -/
def blockLines (percent : Int) (d : Declarations) : List String :=
  ("  " ++ toString percent ++ "% \x7b") ::
    d.entries.map (fun entry => declarationLine entry.1 entry.2) ++ ["  \x7d"]

section Reading

private theorem readBlocks_declarations (percent : String) (declarations : List String)
    (entries : List (String × String)) (rest : List String) :
    readBlocks (some (percent, declarations))
        (entries.map (fun entry => declarationLine entry.1 entry.2) ++ "  \x7d" :: rest) =
      (readBlocks none rest).map
        ((percent, declarations ++ entries.map fun entry => entry.1 ++ ": " ++ entry.2) :: ·) := by
  induction entries generalizing declarations with
  | nil => simp [readBlocks]
  | cons entry entries ih =>
    have hline : between? "    " ";" (declarationLine entry.1 entry.2) =
        some (entry.1 ++ ": " ++ entry.2) := by
      rw [between?_eq_some_iff, declarationLine]
      simp only [String.append_assoc]
    have hopen : declarationLine entry.1 entry.2 ≠ "  \x7d" := by
      intro h
      rw [h] at hline
      cases hline
    rw [List.map_cons, List.cons_append, readBlocks, if_neg hopen, hline, Option.bind_eq_bind,
      Option.bind_some, ih, List.append_assoc]
    rfl

theorem readBlocks_blockLines (percent : Int) (d : Declarations) (rest : List String) :
    readBlocks none (blockLines percent d ++ rest) = (readBlocks none rest).map
      ((toString percent, d.entries.map fun entry => entry.1 ++ ": " ++ entry.2) :: ·) := by
  have hline : between? "  " "% \x7b" ("  " ++ toString percent ++ "% \x7b") =
      some (toString percent) :=
    between?_eq_some_iff.mpr rfl
  have hopen : "  " ++ toString percent ++ "% \x7b" ≠ "\x7d" := by
    intro h
    rw [h] at hline
    cases hline
  rw [blockLines, List.cons_append, List.cons_append, readBlocks, if_neg hopen, hline,
    Option.bind_eq_bind, Option.bind_some, List.append_assoc, List.singleton_append,
    readBlocks_declarations, List.nil_append]

theorem readBlocks_buckets (buckets : List (Int × Declarations)) :
    readBlocks none (buckets.flatMap (fun b => blockLines b.1 b.2) ++ ["\x7d", ""]) =
      some (buckets.map fun b =>
        (toString b.1, b.2.entries.map fun entry => entry.1 ++ ": " ++ entry.2)) := by
  induction buckets with
  | nil => rfl
  | cons bucket rest ih =>
    rw [List.flatMap_cons, List.append_assoc, readBlocks_blockLines, ih]
    rfl

/-- Lines that are ended by line feeds are the pieces between these. -/
theorem splitOn_ended {ls : List String} (h : ∀ line ∈ ls, '\n' ∉ line.toList) :
    ((String.join (ls.map (· ++ "\n"))).toList.splitOn '\n').map String.ofList = ls ++ [""] := by
  induction ls with
  | nil => rfl
  | cons line rest ih =>
    rw [List.forall_mem_cons] at h
    have htext : (String.join ((line :: rest).map (· ++ "\n"))).toList =
        line.toList ++ '\n' :: (String.join (rest.map (· ++ "\n"))).toList := by
      simp [List.append_assoc]
    rw [htext, List.splitOn_append_cons_self_of_not_mem h.1, List.map_cons, ih h.2,
      String.ofList_toList, List.cons_append]

end Reading

namespace Animation

/-- The lines of a keyframes rule: its name, the buckets, and the brace that closes it. -/
def ruleLines (a : Animation) : List String :=
  ("@keyframes " ++ a.keyframesName ++ " \x7b") ::
    a.buckets.flatMap (fun bucket => blockLines bucket.1 bucket.2) ++ ["\x7d"]

private theorem bucketText_eq (percent : Int) (d : Declarations) :
    bucketText percent d = String.join ((blockLines percent d).map (· ++ "\n")) := by
  have hentries : (d.entries.map fun entry => declarationLine entry.1 entry.2).map (· ++ "\n") =
      d.entries.map fun entry => "    " ++ entry.1 ++ ": " ++ entry.2 ++ ";\n" := by
    rw [List.map_map]
    refine List.map_congr_left fun entry _ => ?_
    simp only [Function.comp_apply, declarationLine, String.append_assoc]
    rfl
  rw [blockLines, bucketText, List.map_append, List.map_cons, hentries]
  simp [String.join_cons, String.append_assoc]

private theorem join_buckets (buckets : List (Int × Declarations)) :
    String.join (buckets.map fun bucket => bucketText bucket.1 bucket.2) =
      String.join
        ((buckets.flatMap fun bucket => blockLines bucket.1 bucket.2).map (· ++ "\n")) := by
  induction buckets with
  | nil => rfl
  | cons bucket rest ih =>
    rw [List.map_cons, String.join_cons, ih, bucketText_eq, List.flatMap_cons, List.map_append,
      String.join_append]

theorem keyframesRule_eq (a : Animation) :
    a.keyframesRule = String.join (a.ruleLines.map (· ++ "\n")) := by
  have hrule : a.keyframesRule = "@keyframes " ++ a.keyframesName ++ " \x7b\n" ++
      String.join (a.buckets.map fun bucket => bucketText bucket.1 bucket.2) ++ "\x7d\n" := rfl
  rw [hrule, join_buckets, ruleLines]
  simp [String.append_assoc]

/-- No id, property or value of an animation goes over several lines. -/
structure KeepsToLines (a : Animation) : Prop where
  id : '\n' ∉ a.id.toList
  property : ∀ t ∈ a.tracks, '\n' ∉ t.property.toList
  value : ∀ t ∈ a.tracks, ∀ k ∈ t.keyframes, ∀ v ∈ k.value?, '\n' ∉ v.shown.toList

end Animation

/-- No property and no value of some declarations goes over several lines. -/
def KeepToLines (d : Declarations) : Prop :=
  ∀ entry ∈ d.entries, '\n' ∉ entry.1.toList ∧ '\n' ∉ entry.2.toList

private theorem KeepToLines.insert {d : Declarations} {key value : String} (h : KeepToLines d)
    (hkey : '\n' ∉ key.toList) (hvalue : '\n' ∉ value.toList) :
    KeepToLines (d.insert key value) := by
  intro entry hm
  rcases Dict.mem_of_mem_insert hm with rfl | hm
  · exact ⟨hkey, hvalue⟩
  · exact h entry hm

private theorem KeepToLines.declare {d : Declarations} {t : Track} {value : String}
    (h : KeepToLines d) (hproperty : '\n' ∉ t.property.toList) (hvalue : '\n' ∉ value.toList) :
    KeepToLines (t.declare value d) := by
  rw [Track.declare]
  cases htarget : t.target with
  | property name =>
    rw [← Track.property_of_target htarget]
    exact h.insert hproperty hvalue
  | channel c =>
    have hcall : '\n' ∉ (c.function ++ "(" ++ value ++ ")").toList := by
      have hfunction : '\n' ∉ c.function.toList := by cases c <;> decide
      simp [hfunction, hvalue]
    dsimp only
    split
    · next calls hcalls =>
      refine h.insert (by decide) ?_
      have hbefore : '\n' ∉ calls.toList := (h _ (Dict.mem_of_get? hcalls)).2
      rw [String.toList_append, String.toList_append]
      simp only [List.mem_append, not_or]
      exact ⟨⟨hbefore, by decide⟩, hcall⟩
    · exact h.insert (by decide) hcall
  | unknownChannel => exact h

private theorem KeepToLines.declareAll {samples : List (Track × Keyframe × Scalar)}
    (h : ∀ s ∈ samples, '\n' ∉ s.1.property.toList ∧ '\n' ∉ s.2.2.shown.toList) :
    KeepToLines (declareAll samples .empty) := by
  induction samples using List.reverseRecOn with
  | nil => exact fun _ hm => absurd hm List.not_mem_nil
  | append_singleton before s ih =>
    obtain ⟨hproperty, hvalue⟩ := h s (by simp)
    rw [declareAll_append]
    exact (ih fun s hm => h s (List.mem_append_left _ hm)).declare hproperty hvalue

namespace Animation

variable {a : Animation}

private theorem keepToLines_of_mem_buckets (h : a.KeepsToLines) {bucket : Int × Declarations}
    (hm : bucket ∈ a.buckets) : KeepToLines bucket.2 := by
  rw [eq_declareAll_of_mem_buckets hm]
  refine .declareAll fun s hs => ?_
  obtain ⟨t, ht, hsample⟩ := List.mem_flatMap.mp (List.mem_filter.mp hs).1
  obtain ⟨k, hk, hvalue⟩ := List.mem_filterMap.mp hsample
  obtain ⟨v, hv, rfl⟩ := Option.map_eq_some_iff.mp hvalue
  exact ⟨h.property t ht, h.value t ht k hk v hv⟩

private theorem break_notMem_keyframesName (h : a.KeepsToLines) :
    '\n' ∉ a.keyframesName.toList := by
  rw [keyframesName, replaceChars, String.toList_ofList, List.mem_flatMap]
  rintro ⟨c, hc, hm⟩
  split at hm
  · cases List.mem_singleton.mp hm
  · have hbreak : '\n' = c := by simpa using hm
    exact h.id (hbreak ▸ hc)

private theorem break_notMem_blockLines {d : Declarations} (h : KeepToLines d) (percent : Int) :
    ∀ line ∈ blockLines percent d, '\n' ∉ line.toList := by
  have hpercent : '\n' ∉ percent.repr.toList := fun hm => by
    cases IsNumeral.toString_int percent _ hm
  rw [blockLines, List.cons_append, List.forall_mem_cons, List.forall_mem_append]
  refine ⟨by simp [hpercent], ?_, by decide⟩
  rw [List.forall_mem_map]
  intro entry hm
  obtain ⟨hproperty, hvalue⟩ := h entry hm
  simp [declarationLine, hproperty, hvalue]

/-- A rule whose texts keep to their lines is read back as the buckets of the animation. -/
theorem readRule_keyframesRule (h : a.KeepsToLines) :
    readRule a.keyframesRule = some (a.keyframesName, a.buckets.map fun bucket =>
      (toString bucket.1, bucket.2.entries.map fun entry => entry.1 ++ ": " ++ entry.2)) := by
  have hlines : ∀ line ∈ a.ruleLines, '\n' ∉ line.toList := by
    rw [ruleLines, List.cons_append, List.forall_mem_cons, List.forall_mem_append]
    refine ⟨?_, ?_, by decide⟩
    · have hname := break_notMem_keyframesName h
      simp [hname]
    · intro line hm
      obtain ⟨bucket, hbucket, hline⟩ := List.mem_flatMap.mp hm
      exact break_notMem_blockLines (keepToLines_of_mem_buckets h hbucket) _ line hline
  have hname : between? "@keyframes " " \x7b" ("@keyframes " ++ a.keyframesName ++ " \x7b") =
      some a.keyframesName :=
    between?_eq_some_iff.mpr rfl
  have hblocks := readBlocks_buckets a.buckets
  rw [keyframesRule_eq, readRule, splitOn_ended hlines, ruleLines, List.cons_append,
    List.cons_append]
  simp only [hname, List.append_assoc, List.cons_append, List.nil_append, hblocks,
    Option.bind_eq_bind, Option.bind_some]

/-- An animation has a bucket for exactly the percentages at which a keyframe with a value falls,
with exactly the samples there, and its keyframes rule has the lines of every bucket once, in
ascending order of percentage: the percentage, a line for each declaration, and the closing brace.
Where no text goes over a line these are the blocks that a reader finds. -/
theorem buckets_gather_samples (a : Animation) :
    (∀ p, p ∈ a.buckets.map Prod.fst ↔ ∃ t ∈ a.tracks, p ∈ t.percents a.duration) ∧
    (∀ bucket ∈ a.buckets, a.Gathers bucket.1 bucket.2) ∧
    (a.buckets.map Prod.fst).Pairwise (· < ·) ∧
    a.keyframesRule = String.join (a.ruleLines.map (· ++ "\n")) ∧
    (a.KeepsToLines → readRule a.keyframesRule = some (a.keyframesName, a.buckets.map fun bucket =>
      (toString bucket.1, bucket.2.entries.map fun entry => entry.1 ++ ": " ++ entry.2))) :=
  ⟨fun _ => mem_map_fst_buckets, fun _ => gathers_of_mem_buckets,
    List.pairwise_map.mpr a.buckets_ascend, a.keyframesRule_eq, readRule_keyframesRule⟩

/-- A turn and a growth that fall together to the percent, a fading with a keyframe that has no
value, a part of the transform that nothing knows, and a property driven by two tracks. -/
private def revealing : Animation :=
  { id := "card-reveal", elementId := "card", name := "Reveal", trigger := .entry
    duration := 1000, delay := 0
    tracks := [
      ⟨"turn", "card", "transform.rotate",
        [.ofValue "a" 0 (.text "0deg"), .ofValue "b" 996 (.text "30deg"),
          .ofValue "c" 1000 (.text "90deg")], ""⟩,
      ⟨"fade", "card", "opacity",
        [.ofValue "d" 0 (.number 0), ⟨"e", 500, .empty⟩, .ofValue "f" 1000 (.number 1)], ""⟩,
      ⟨"grow", "card", "transform.scale", [.ofValue "g" 1000 (.text "1.5")], ""⟩,
      ⟨"skew", "card", "transform.skew",
        [.ofValue "h" 250 (.text "9deg"), .ofValue "i" 1000 (.text "0deg")], ""⟩,
      ⟨"shine", "card", "opacity", [.ofValue "j" 1000 (.text "0.9")], ""⟩] }

theorem revealing_gathers_samples : revealing.KeepsToLines ∧
    revealing.buckets.map Prod.fst = [0, 25, 100] ∧
    (∀ bucket ∈ revealing.buckets, revealing.Gathers bucket.1 bucket.2) ∧
    readRule revealing.keyframesRule = some ("card_reveal",
      [("0", ["transform: rotate(0deg)", "opacity: 0"]),
        ("25", []),
        ("100", ["transform: rotate(30deg) rotate(90deg) scale(1.5)", "opacity: 0.9"])]) := by
  have hlines : revealing.KeepsToLines :=
    { id := by decide
      property := by decide
      value := by decide +kernel }
  obtain ⟨-, hgathers, -, -, hread⟩ := buckets_gather_samples revealing
  have hbuckets : revealing.buckets = [
      (0, .ofList [("transform", "rotate(0deg)"), ("opacity", "0")]),
      (25, .empty),
      (100, .ofList [("transform", "rotate(30deg) rotate(90deg) scale(1.5)"),
        ("opacity", "0.9")])] := by
    decide +kernel
  refine ⟨hlines, by rw [hbuckets]; rfl, hgathers, ?_⟩
  rw [hread hlines, hbuckets]
  rfl

end Animation

end Pagewright
