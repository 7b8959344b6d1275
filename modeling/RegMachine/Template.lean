import RegMachine.Text.Replace

/-!
# The runtime template

The generated streams are spliced into a template that supplies the runtime:
an entry label, a halting loop behind the program's body, and the six memory
routines. The body stands at one placeholder, the definitions of functions at
another.
-/

namespace RegMachine.Template

/-- The placeholder of the program's body. -/
def bodyMark : String := "\x7bcode\x7d"

/-- The placeholder of the function definitions. -/
def functionsMark : String := "\x7bfunc_code\x7d"

/-- The routine of a label, which runs one memory instruction on the value and
address registers and returns. -/
def routine (label op : String) : List String :=
  ["." ++ label, op ++ " r20, r11", "jpr r0"]

/-- **The default template.** -/
def base : String :=
  String.join <| List.map (· ++ "\n") <|
    [".start", bodyMark, ".halt", "ldr r1, .halt", "jpr r1"]
      ++ routine "lmemb" "stb" ++ routine "lmemh" "sth" ++ routine "lmemw" "stw"
      ++ routine "cmemb" "ldb" ++ routine "cmemh" "ldh" ++ routine "cmemw" "ldw"
      ++ [functionsMark]

/-- **Splice the two streams into a template.** The placeholder of the body is
replaced first; the placeholder of the functions is then replaced in the
result, wherever it stands. -/
def render (template body functions : String) : String :=
  let spliced := Text.replace bodyMark.toList body.toList template.toList
  String.ofList (Text.replace functionsMark.toList functions.toList spliced)

end RegMachine.Template
