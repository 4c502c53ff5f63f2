import Pagewright.Page.Template

/-! Component names are identifiers, depend on nothing but the tokens of a page name, and are their
own component names. -/

namespace Pagewright

/-- The longest runs of ASCII letters and digits in a text, in order. -/
def tokens (text : String) : List (List Char) :=
  (text.toList.splitOnP fun c => !c.isAlphanum).filter fun token => !token.isEmpty

def capitalized (token : List Char) : List Char := token.modifyHead Char.toUpper

/-- The component name that tokens make up. -/
def nameOfTokens (tokens : List (List Char)) : String :=
  let joined := tokens.flatMap capitalized
  String.ofList (if joined.head?.all Char.isDigit then "Page".toList ++ joined else joined)

/-- An uppercase ASCII letter, and behind it ASCII letters and digits only. -/
def IsComponentName (text : String) : Prop :=
  ∃ first rest, text.toList = first :: rest ∧ first.isUpper ∧ ∀ c ∈ rest, c.isAlphanum

/-- What is joined is the first token, capitalized if it begins there, and the others
capitalized. -/
private theorem joinTokens_of_splitOnP {begins : Bool} {cs first : List Char}
    {others : List (List Char)} (h : cs.splitOnP (fun c => !c.isAlphanum) = first :: others) :
    joinTokens begins cs =
      (if begins then capitalized first else first) ++ others.flatMap capitalized := by
  induction cs generalizing begins first others with
  | nil =>
    cases h
    cases begins <;> rfl
  | cons c rest ih =>
    obtain ⟨next, behind, hrest⟩ :=
      List.exists_cons_of_ne_nil (List.splitOnP_ne_nil (fun c => !c.isAlphanum) rest)
    rw [List.splitOnP_cons_eq_if_modifyHead, hrest] at h
    rw [joinTokens]
    by_cases hc : c.isAlphanum
    · rw [hc, Bool.not_true, if_neg Bool.false_ne_true, List.modifyHead_cons] at h
      cases h
      rw [if_pos hc, ih hrest]
      cases begins <;> rfl
    · rw [Bool.not_eq_true] at hc
      rw [hc, Bool.not_false, if_pos rfl] at h
      cases h
      rw [hc, if_neg Bool.false_ne_true, ih hrest]
      cases begins <;> rfl

theorem joinTokens_eq (text : String) :
    joinTokens true text.toList = (tokens text).flatMap capitalized := by
  have hfilter (runs : List (List Char)) :
      (runs.filter fun run => !run.isEmpty).flatMap capitalized = runs.flatMap capitalized := by
    induction runs with
    | nil => rfl
    | cons run others ih => cases run <;> simp [ih, capitalized]
  obtain ⟨first, others, hsplit⟩ := List.exists_cons_of_ne_nil
    (List.splitOnP_ne_nil (fun c => !c.isAlphanum) text.toList)
  rw [joinTokens_of_splitOnP hsplit, tokens, hfilter, hsplit]
  rfl

theorem componentName_eq (name : String) : componentName name = nameOfTokens (tokens name) := by
  rw [componentName, nameOfTokens, joinTokens_eq]
  generalize (tokens name).flatMap capitalized = joined
  cases joined <;> rfl

private theorem toUpper_of_isAlphanum {c : Char} (h : c.isAlphanum) :
    c.toUpper.isAlphanum ∧ (c.toUpper.isDigit ∨ c.toUpper.isUpper) :=
  forall_isAlphanum
    (p := fun c => c.toUpper.isAlphanum ∧ (c.toUpper.isDigit ∨ c.toUpper.isUpper)) (by decide) h

private theorem toUpper_of_isUpper {c : Char} (h : c.isUpper) :
    c.isAlphanum ∧ ¬ c.isDigit ∧ c.toUpper = c := by
  have halphanum : c.isAlphanum :=
    Bool.or_eq_true_iff.mpr (.inl (Bool.or_eq_true_iff.mpr (.inl h)))
  have hupper : c.isUpper → ¬ c.isDigit ∧ c.toUpper = c :=
    forall_isAlphanum (p := fun c => c.isUpper → ¬ c.isDigit ∧ c.toUpper = c) (by decide) halphanum
  exact ⟨halphanum, hupper h⟩

theorem isAlphanum_of_mem_joinTokens (begins : Bool) (cs : List Char) :
    ∀ c ∈ joinTokens begins cs, c.isAlphanum := by
  induction cs generalizing begins with
  | nil => simp [joinTokens]
  | cons c rest ih =>
    rw [joinTokens]
    split
    · next h =>
      refine List.forall_mem_cons.mpr ⟨?_, ih false⟩
      split
      · exact (toUpper_of_isAlphanum h).1
      · exact h
    · exact ih true

/-- The first character of a run is capitalized, so what does not begin with a digit begins with a
capital. -/
private theorem head?_joinTokens {cs : List Char} {c : Char}
    (h : (joinTokens true cs).head? = some c) : c.isDigit ∨ c.isUpper := by
  induction cs with
  | nil => cases h
  | cons first rest ih =>
    rw [joinTokens] at h
    split at h
    · next hfirst =>
      cases h
      exact (toUpper_of_isAlphanum hfirst).2
    · exact ih h

theorem joinTokens_eq_self {cs : List Char} (h : ∀ c ∈ cs, c.isAlphanum) :
    joinTokens false cs = cs := by
  induction cs with
  | nil => rfl
  | cons c rest ih =>
    obtain ⟨hc, hrest⟩ := List.forall_mem_cons.mp h
    rw [joinTokens, if_pos hc, ih hrest, if_neg Bool.false_ne_true]

theorem isComponentName_componentName (name : String) : IsComponentName (componentName name) := by
  have hall := isAlphanum_of_mem_joinTokens true name.toList
  have hpage : ∀ c ∈ "age".toList, c.isAlphanum := List.all_eq_true.mp (by decide)
  unfold componentName
  cases hjoined : joinTokens true name.toList with
  | nil => exact ⟨'P', "age".toList, rfl, rfl, hpage⟩
  | cons c rest =>
    rw [hjoined] at hall
    dsimp only
    split
    · refine ⟨'P', "age".toList ++ c :: rest, by rw [String.toList_ofList]; rfl, rfl, ?_⟩
      exact List.forall_mem_append.mpr ⟨hpage, hall⟩
    · next hdigit =>
      have hupper : c.isUpper :=
        (head?_joinTokens (congrArg List.head? hjoined)).resolve_left hdigit
      exact ⟨c, rest, String.toList_ofList, hupper, (List.forall_mem_cons.mp hall).2⟩

/-- Component names are the names that are their own component names. -/
theorem componentName_eq_self_iff {text : String} :
    componentName text = text ↔ IsComponentName text := by
  constructor
  · intro h
    rw [← h]
    exact isComponentName_componentName text
  · rintro ⟨first, rest, htext, hupper, hrest⟩
    obtain ⟨hfirst, hdigit, hsame⟩ := toUpper_of_isUpper hupper
    have hjoined : joinTokens true text.toList = first :: rest := by
      rw [htext, joinTokens, if_pos hfirst, if_pos rfl, hsame, joinTokens_eq_self hrest]
    rw [componentName, hjoined]
    dsimp only
    rw [if_neg hdigit, ← htext, String.ofList_toList]

/-- A component name is an uppercase ASCII letter followed by ASCII letters and digits; exactly such
names are their own component names, so taking the component name again changes nothing; and names
with the same tokens have one component name, whatever stands around the tokens. -/
theorem componentName_stable (name : String) :
    IsComponentName (componentName name) ∧
    componentName (componentName name) = componentName name ∧
    (componentName name = name ↔ IsComponentName name) ∧
    ∀ other, tokens name = tokens other → componentName name = componentName other := by
  have hname := isComponentName_componentName name
  refine ⟨hname, componentName_eq_self_iff.mpr hname, componentName_eq_self_iff, ?_⟩
  intro other h
  rw [componentName_eq, componentName_eq, h]

/-- Blanks, marks and letters outside ASCII are all the same between tokens. -/
theorem aboutUs_componentName_stable :
    tokens "about-us 2" = tokens "  (about) «us»é2" ∧
    componentName "about-us 2" = componentName "  (about) «us»é2" ∧
    componentName "about-us 2" = "AboutUs2" := by
  have h : tokens "about-us 2" = tokens "  (about) «us»é2" := by decide
  exact ⟨h, (componentName_stable "about-us 2").2.2.2 _ h, by decide⟩

end Pagewright
