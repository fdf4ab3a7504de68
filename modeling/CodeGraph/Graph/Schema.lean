/-!
The labels, relations and property names that the analyzers use. Labels and relations are open
strings in the data model.
-/

namespace CodeGraph

namespace Label

def file : String := "File"

/-- Free functions, routines of a database and script-level routines. -/
def function : String := "Function"

/-- Functions owned by a type. -/
def method : String := "Method"

/-- Classes, structures and records. -/
def class_ : String := "Class"

def interface : String := "Interface"

/-- Fields and properties of a type. -/
def field : String := "Field"

/-- Variables of a file or namespace. -/
def global : String := "Global"

/-- Tables and views. -/
def table : String := "Table"

/-- Definitions that are linked to the file holding them. -/
def isDefinable (label : String) : Bool :=
  label == function || label == method || label == class_ || label == interface

/-- Definitions that are given an embedding. -/
def isCallable (label : String) : Bool :=
  label == function || label == method

end Label

namespace Relation

/-- From a caller to what it calls or constructs. -/
def calls : String := "CALLS"

/-- From a reader or writer to a variable, field or table. -/
def uses : String := "USES"

def inherits : String := "INHERITS"

def extends_ : String := "EXTENDS"

def implements : String := "IMPLEMENTS"

/-- From a definition to its file. -/
def definedIn : String := "DEFINED_IN"

/-- From a type to its method. -/
def hasMethod : String := "HAS_METHOD"

/-- From a type to its field. -/
def defines : String := "DEFINES"

/-- From a trigger to the table that fires it. -/
def watches : String := "WATCHES"

end Relation

namespace Key

def name : String := "name"

def file : String := "file"

/-- The first line, counted from 1. -/
def line : String := "line"

/-- The last line, counted from 1. -/
def endLine : String := "end_line"

/-- The declared type of a field or global. -/
def dataType : String := "data_type"

def embedding : String := "embedding"

def kind : String := "kind"

def signature : String := "signature"

def complexity : String := "complexity"

end Key

end CodeGraph
