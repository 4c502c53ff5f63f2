/-! Edits of a document that may fail part of the way. -/

namespace Pagewright

/-- An edit of a document of type `σ`. Steps change the document one after the other; a step that
fails ends the edit and keeps what the steps before it have done. -/
abbrev Edit (σ ε α : Type) : Type := ExceptT ε (StateM σ) α

namespace Edit

variable {σ ε α : Type}

/-- Runs an edit: its result or error, and the document as it leaves it. -/
def on (edit : Edit σ ε α) (document : σ) : Except ε α × σ := StateT.run (ExceptT.run edit) document

/-- The value, or the error when there is none. -/
def orFail (error : ε) : Option α → Edit σ ε α
  | some value => pure value
  | none => throw error

end Edit

/-- Changes the first entry that passes a test; without one the list stays as it is. -/
def changeFirst {α : Type} (test : α → Bool) (f : α → α) : List α → List α
  | [] => []
  | x :: rest => if test x then f x :: rest else x :: changeFirst test f rest

end Pagewright
