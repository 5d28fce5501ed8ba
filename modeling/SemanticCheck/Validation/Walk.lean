import SemanticCheck.Validation.Check

/-!
# The walk over a file

Every node is checked on the way down, before its children, and nothing that is found stops the walk.
A node is valid when its own check and those of everything below it say so.
-/

namespace SemanticCheck

namespace Site

mutual

/-- Whether the tree is valid, and what is known after it. -/
def validate (site : Site) : NodeTree → ValidationState → Bool × ValidationState
  | .node node children, st =>
    let (sound, checked) := site.check node (site.enter node st)
    let (valid, walked) := validateAll site children checked
    (sound && valid, site.leave node walked)

def validateAll (site : Site) : List NodeTree → ValidationState → Bool × ValidationState
  | [], st => (true, st)
  | t :: ts, st =>
    let (first, st₁) := validate site t st
    let (rest, st₂) := validateAll site ts st₁
    (first && rest, st₂)

end

/-- Whether the whole file is valid, and what was found in it. -/
def validateFile (site : Site) : Bool × Log :=
  let (valid, st) := site.validate site.file.tree {}
  (valid, st.log)

end Site

end SemanticCheck
