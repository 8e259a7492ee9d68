import BlockMachine.Layout.Emission
import BlockMachine.Log
import BlockMachine.Source.Reading
import BlockMachine.Source.Scan

/-! # Assembly

From source text to a program: scan, read, lay out, emit.  The first stage that fails gives the
error; scanning fails with all rejected characters at once.

* `tokenize`, `assembleTokens`, `assemble` — the stages;
* `assemblyLog` — what the stages write to the log.
-/

namespace BlockMachine

inductive AssemblyError
  | scan (rejections : List Rejection)
  | read (error : ReadError)
  | layout (error : LayoutError)
  deriving DecidableEq, Repr

def AssemblyError.message : AssemblyError → String
  | scan rejections => "\n".intercalate (rejections.map Rejection.message)
  | read error => s!"Parsing failed: {error.message}"
  | layout error => s!"Translation failed: {error.message}"

/-- The label of the entry block, unless another one is asked for. -/
def defaultEntry : String :=
  "_start"

/-- The tokens of a source text without rejected characters. -/
def tokenize (source : String) : Except AssemblyError (List Token) :=
  let (tokens, scan) := (Scan.ofString source).tokenize
  if scan.isClean then .ok tokens else .error (.scan scan.rejections)

def readTokens (tokens : List Token) : Except ReadError (List CodeBlock) :=
  (Reader.ofTokens tokens).readTree.1

def assembleTokens (tokens : List Token) (entry : String) : Except AssemblyError Program := do
  let tree ← (readTokens tokens).mapError .read
  (assembleBlocks (CodeBlock.flattenAll tree) entry).mapError .layout

def assemble (source entry : String) : Except AssemblyError Program := do
  assembleTokens (← tokenize source) entry

/-- What reading, laying out and emitting write to the log, each when it succeeds. -/
def assemblyLog (tokens : List Token) (entry : String) : List Log.Entry :=
  match readTokens tokens with
  | .error _ => []
  | .ok tree =>
    let blocks := CodeBlock.flattenAll tree
    ⟨.debug, "parsed top-level blocks", [.nat "blocks" tree.length]⟩ ::
      match Layout.ofBlocks blocks entry with
      | .error _ => []
      | .ok layout =>
        ⟨.debug, "computed block layout",
          [("entry", Log.quoted entry), .nat "blocks" blocks.length,
            .nat "code_len" layout.codeLength, ("table", Range.debugList layout.table)]⟩ ::
        match emit blocks layout with
        | .error _ => []
        | .ok p =>
          [⟨.debug, "emitted bytecode",
            [.nat "code" p.code.size, .nat "constants" p.constants.size]⟩]

end BlockMachine
