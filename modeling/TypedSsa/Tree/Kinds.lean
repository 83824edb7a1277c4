import TypedSsa.Tree.Arena

/-!
The kinds of statements and expressions that a function is made of.
-/

namespace TypedSsa.Kind

def function : String := "Function"
def param : String := "Param"
def assign : String := "Assign"
def exprStmt : String := "ExprStmt"
def ifElse : String := "If"
def whileLoop : String := "While"
def forLoop : String := "For"
def tryCatch : String := "Try"
def handler : String := "Handler"
def breakStmt : String := "Break"
def continueStmt : String := "Continue"
def returnStmt : String := "Return"
def raise : String := "Raise"
def name : String := "Name"
def const : String := "Const"
def call : String := "Call"
def binary : String := "BinOp"
def cast : String := "Cast"

/-- Declared type of a parameter or an assignment. -/
def declaredType : String := "declared_type"

/-- Marks a counted loop as parallel. -/
def parallel : String := "parallel"

/-- Declared result type of a function. -/
def returnType : String := "return_type"

/-- Declared parameter types of a function, in order. -/
def signature : String := "signature"

def statements : FieldType := .list (.node none)

def identity (name : String) (fields : List FieldSpec) (hidden : List FieldSpec := []) :
    KindSchema :=
  { name, mode := .identity, fields, hidden }

def value (name : String) (fields : List FieldSpec) : KindSchema :=
  { name, mode := .value, fields }

def builtin : List KindSchema :=
  [ identity function [⟨"name", .str⟩, ⟨"params", .list (.node (some param))⟩, ⟨"body", statements⟩]
      [⟨returnType, .type⟩, ⟨signature, .list .type⟩],
    identity param [⟨"name", .str⟩] [⟨declaredType, .type⟩],
    identity assign [⟨"target", .node (some name)⟩, ⟨"value", .node none⟩]
      [⟨declaredType, .type⟩],
    identity exprStmt [⟨"value", .node none⟩],
    identity ifElse [⟨"test", .node none⟩, ⟨"body", statements⟩, ⟨"orelse", statements⟩],
    identity whileLoop [⟨"test", .node none⟩, ⟨"body", statements⟩],
    identity forLoop
      [⟨"target", .node (some name)⟩, ⟨"start", .node none⟩, ⟨"stop", .node none⟩,
        ⟨"step", .optional (.node none)⟩, ⟨"body", statements⟩]
      [⟨parallel, .bool⟩],
    identity tryCatch [⟨"body", statements⟩, ⟨"handlers", .list (.node (some handler))⟩],
    identity handler [⟨"body", statements⟩],
    identity breakStmt [],
    identity continueStmt [],
    identity returnStmt [⟨"value", .optional (.node none)⟩],
    identity raise [⟨"value", .optional (.node none)⟩],
    identity name [⟨"id", .str⟩],
    value const [⟨"ty", .type⟩, ⟨"text", .str⟩],
    identity call [⟨"func", .str⟩, ⟨"args", .list (.node none)⟩],
    value binary [⟨"op", .str⟩, ⟨"left", .node none⟩, ⟨"right", .node none⟩],
    value cast [⟨"value", .node none⟩, ⟨"ty", .type⟩] ]

end TypedSsa.Kind

namespace TypedSsa

def Registry.builtin : Registry := ⟨Kind.builtin⟩

def Arena.builtin : Arena := { registry := .builtin }

end TypedSsa
