import FlowVerifier.Flow.Graph
import FlowVerifier.Text.Label

/-!
# Flow graphs in writing

A flow graph is shown as a listing of its blocks and drawn as a graph
description in which every block is a box with its instructions.
-/

namespace FlowVerifier
namespace FlowGraph

/-! ## Listing -/

/-- The roles of a block, as remarks behind its name. -/
def remarks (g : FlowGraph) (id : BlockId) (b : Block) : String :=
  (if g.first = some id then " ; first" else "") ++
    (if g.last = some id then " ; last" else "") ++
    if b.isExit then " ; exit" else ""

/-- The lines of a block: its name and its instructions. -/
def blockLines (g : FlowGraph) (id : BlockId) (b : Block) : List String :=
  (b.name ++ ":" ++ g.remarks id b) :: (g.listing id).map fun i => "    " ++ i.text

/-- The line that announces a function. -/
def functionLine (g : FlowGraph) (function : Option FunctionId) : List String :=
  ((function.bind g.function?).map fun f => "function " ++ f.text).toList

/-- The lines of blocks; a change of the function is announced. -/
def listingLines (g : FlowGraph) (current : Option FunctionId) :
    List (BlockId × Block) → List String
  | [] => []
  | (id, b) :: rest =>
    (if b.function = current then [] else g.functionLine b.function) ++
      g.blockLines id b ++ g.listingLines b.function rest

/-- The listing of a graph. -/
def text (g : FlowGraph) : String :=
  String.join ((g.listingLines none g.blocks).map (· ++ "\n"))

/-! ## Drawing -/

/-- The box of a block. -/
def boxLine (g : FlowGraph) (id : BlockId) (b : Block) : String :=
  let lines := b.name :: (g.listing id).map Instruction.text
  let inside := String.join (lines.map fun line => Text.label line ++ "\\l")
  let style :=
    if g.first = some id then ", style=filled, fillcolor=lightgreen"
    else if b.isExit then ", style=filled, fillcolor=lightcoral"
    else if !b.populated then ", style=dashed"
    else ""
  "    " ++ BlockId.text id ++ " [label=\"" ++ inside ++ "\"" ++ style ++ "];"

/-- An arrow between two boxes. -/
def arrow (source target : BlockId) (style : String) : String :=
  "    " ++ BlockId.text source ++ " -> " ++ BlockId.text target ++ style ++ ";"

/-- The arrows that leave a block. -/
def arrowLines (g : FlowGraph) (id : BlockId) (b : Block) : List String :=
  match b.terminator with
  | .finish => []
  | .jump target => [arrow id target ""]
  | .branch _ onTrue onFalse =>
    [arrow id onTrue " [label=\"true\", color=green]",
      arrow id onFalse " [label=\"false\", color=red]"]
  | .ret _ => (g.successors id).map fun site => arrow id site " [style=dashed]"

/-- The drawing of a graph. -/
def drawing (g : FlowGraph) (title : Option String) : String :=
  let head :=
    ["digraph CFG \x7b"] ++
      (title.map fun t => "    label=\"" ++ Text.label t ++ "\";").toList ++
      ["    labelloc=t;",
        "    node [shape=box, fontname=\"Courier\", fontsize=10];",
        "    edge [fontname=\"Courier\", fontsize=9];", ""]
  let boxes := g.blocks.map fun (id, b) => g.boxLine id b
  let arrows := g.blocks.flatMap fun (id, b) => g.arrowLines id b
  String.join ((head ++ boxes ++ [""] ++ arrows ++ ["\x7d"]).map (· ++ "\n"))

end FlowGraph
end FlowVerifier
