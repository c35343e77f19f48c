import Stencil.Compile

namespace Stencil

structure Options where
  input : Option String := none
  output : Option String := none
  listings : Listings := {}
  deriving Repr, Inhabited

namespace Options

def usage : String :=
  "usage: stencil [--dump-tokens] [--dump-ast] [--dump-scopes] [--dump-ir] [-o OUTPUT] INPUT"

def parse (o : Options) : List String → Except String Options
  | [] => .ok o
  | "--dump-tokens" :: rest => parse { o with listings.tokens := true } rest
  | "--dump-ast" :: rest => parse { o with listings.outline := true } rest
  | "--dump-scopes" :: rest => parse { o with listings.scopes := true } rest
  | "--dump-ir" :: rest => parse { o with listings.code := true } rest
  | "-o" :: path :: rest => parse { o with output := some path } rest
  | "--output" :: path :: rest => parse { o with output := some path } rest
  | arg :: rest =>
    if arg.startsWith "-" || o.input.isSome then .error usage
    else parse { o with input := some arg } rest

end Options

def outputName (input : String) : String :=
  let folder := (input.toList.reverse.dropWhile (· != '/')).reverse
  String.ofList folder ++ moduleName input ++ ".qir"

def Diagnostic.located (lines : LineIndex) (file : String) (d : Diagnostic) : String :=
  let place (span : Span) := file ++ ":" ++ (lines.range span).text ++ ": "
  let head := place d.span ++ "error[" ++ d.kind.code ++ "]: " ++ d.message ++ "\n"
  head ++ String.join (d.notes.map fun (remark, span) => place span ++ "note: " ++ remark ++ "\n")

def titled (title text : String) : String :=
  "=== " ++ title ++ " ===\n" ++ text ++ "\n=== End " ++ title ++ " ===\n\n"

def compileFile (source file : String) (wanted : Listings) : String × Option String :=
  let lines := LineIndex.ofSource source
  match compile source file wanted with
  | .error d => (d.located lines file ++ "error: could not parse " ++ file ++ "\n", none)
  | .ok c =>
    let listings := String.join (c.listings.map fun (title, text) => titled title text)
    if c.hasErrors then
      (listings ++ String.join (c.report.entries.map (Diagnostic.located lines file)) ++
        "error: could not compile " ++ file ++ " due to " ++ toString c.report.size ++
        " error(s)\n", none)
    else (listings, some c.module.text)

def runOptions (o : Options) : IO UInt32 := do
  match o.input with
  | none =>
    IO.eprintln Options.usage
    return 2
  | some file =>
    let source ← IO.FS.readFile file
    let (messages, code) := compileFile source file o.listings
    IO.eprint messages
    match code with
    | none => return 1
    | some code =>
      IO.FS.writeFile (o.output.getD (outputName file)) code
      return 0

end Stencil

def main (args : List String) : IO UInt32 := do
  match Stencil.Options.parse {} args with
  | .error message =>
    IO.eprintln message
    return 2
  | .ok options => Stencil.runOptions options
