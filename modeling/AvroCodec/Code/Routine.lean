import AvroCodec.Code.Decoder

/-!
# Routines and modules

A routine is a function that writes and a function that reads, each with the declarations of its
variables, and the routines of the recursive types that they call. Its text names the functions
`serialize` and `deserialize`; in the routine of a recursive type they are renamed after the type.

The text of a module is the text of a routine inside a fixed frame.
-/

namespace AvroCodec.Code

inductive Routine where
  | mk (writerDeclarations : List String) (writer : Encoder) (readerDeclarations : List String)
    (reader : Decoder) (helpers : List (String × Routine))

namespace Routine

def writerDeclarations : Routine → List String
  | mk d _ _ _ _ => d

def writer : Routine → Encoder
  | mk _ w _ _ _ => w

def readerDeclarations : Routine → List String
  | mk _ _ d _ _ => d

def reader : Routine → Decoder
  | mk _ _ _ r _ => r

def helpers : Routine → List (String × Routine)
  | mk _ _ _ _ h => h

def bodyText (declarations : List String) (code : String) : String :=
  "\n".intercalate declarations ++ "\n" ++ code

def frame (writerBody readerBody helpersText : String) : String :=
  "def serialize(data, output):\n    cdef bytearray buffer = bytearray()\n    cdef dict datum\n"
    ++ Text.indentAll 4 writerBody ++ "\n    output.write(buffer)\n\n\n\ndef deserialize(fo):\n"
    ++ Text.indentAll 4 readerBody ++ "\n    return data\n\n\n" ++ helpersText

def rename (name text : String) : String :=
  let writer := "def " ++ writerName name ++ "(data, output)"
  let reader := "def " ++ readerName name ++ "(fo)"
  Text.replaceAll "def deserialize(fo)" reader
    (Text.replaceAll "cpdef deserialize(fo)" reader
      (Text.replaceAll "def serialize(data, output)" writer
        (Text.replaceAll "cpdef serialize(data, output)" writer text)))

mutual

def render : Routine → String
  | mk wd w rd r helpers =>
    frame (bodyText wd w.render) (bodyText rd r.render) ("\n\n\n\n".intercalate (renderHelpers helpers))

def renderHelpers : List (String × Routine) → List String
  | [] => []
  | (name, routine) :: rest => rename name (render routine) :: renderHelpers rest

end

def helperText (helper : String × Routine) : String := rename helper.1 helper.2.render

def wrapperText : String :=
  "\nclass DictWrapper(dict):\n    '''\n    This is used only in read_union to be able\n"
    ++ "    to add `schema` attribute to a dict.\n    '''\n"

def moduleText (extended : Bool) (routine : String) : String :=
  "#cython: language_level=3\ncimport write\ncimport read\ncimport prepare\nimport cython\n\n"
    ++ (if extended then wrapperText else "")
    ++ "\n\n\n\n@cython.boundscheck(False)\n@cython.wraparound(False)\n"
    ++ "@cython.initializedcheck(False)\ndef __invoke():\n    " ++ Text.indent 4 routine
    ++ "\n    return locals()"

end Routine

end AvroCodec.Code
