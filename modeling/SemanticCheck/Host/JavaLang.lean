import SemanticCheck.Host.Table

/-! # The classes every program can use without an import -/

namespace SemanticCheck.Host

def implicitPackage : String := "java.lang"

def throwableName : String := "java.lang.Throwable"

namespace JavaLang

def double : Ty := .primitive .double

def printStream : Ty := .reference "java.io.PrintStream" [objectName]

def objectClass : HostClass :=
  HostClass.ofName objectName
    |>.withMethod "toString" [] .string false
    |>.withMethod "hashCode" [] .int false
    |>.withMethod "equals" [.object] .boolean false

def stringClass : HostClass :=
  HostClass.ofName stringName
    |>.withMethod "length" [] .int false
    |>.withMethod "isEmpty" [] .boolean false
    |>.withMethod "concat" [.string] .string false
    |>.withMethod "charAt" [.int] (.primitive .char) false
    |>.withMethod "toString" [] .string false

def mathClass : HostClass :=
  HostClass.ofName "java.lang.Math"
    |>.withField "PI" double true
    |>.withField "E" double true
    |>.withMethod "abs" [.int] .int true
    |>.withMethod "abs" [double] double true
    |>.withMethod "max" [.int, .int] .int true
    |>.withMethod "max" [double, double] double true
    |>.withMethod "sqrt" [double] double true

def integerClass : HostClass :=
  HostClass.ofName "java.lang.Integer"
    |>.withField "MAX_VALUE" .int true
    |>.withMethod "parseInt" [.string] .int true

def systemClass : HostClass :=
  HostClass.ofName "java.lang.System" |>.withField "out" printStream true

def printStreamClass : HostClass :=
  HostClass.ofName "java.io.PrintStream"
    |>.withMethod "println" [.string] .void false
    |>.withMethod "println" [.int] .void false
    |>.withMethod "println" [.object] .void false

/-- Something that can be thrown, with what stands above it up to the root. -/
def throwable (name : String) (ancestors : List String) : HostClass :=
  HostClass.ofName name
    |>.extending ancestors
    |>.withMethod "getMessage" [] .string false

def classes : List HostClass :=
  [objectClass, stringClass, mathClass, integerClass, systemClass, printStreamClass,
    throwable throwableName [],
    throwable "java.lang.Exception" [throwableName],
    throwable "java.lang.RuntimeException" ["java.lang.Exception", throwableName],
    throwable "java.lang.IllegalArgumentException"
      ["java.lang.RuntimeException", "java.lang.Exception", throwableName],
    throwable "java.lang.IllegalStateException"
      ["java.lang.RuntimeException", "java.lang.Exception", throwableName]]

end JavaLang

/-- The implicit package, with the stream that `System.out` is. -/
def javaLang : Host := JavaLang.classes.foldl addClass empty

end SemanticCheck.Host
