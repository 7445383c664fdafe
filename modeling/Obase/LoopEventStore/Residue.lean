import Obase.LoopEventStore.Append
import Obase.LoopEventStore.Migrate
import Obase.LoopEventStore.Tamper
import Obase.Json.Glued
import Obase.LastLine

namespace Obase.LoopEventStore
set_option autoImplicit true
open Json Text

section
variable [Builtins F]

variable {sha256Hash : List UInt8 → List UInt8}

end
section

def firstCall : Call WholeFloat :=
  sampleCall 1690000000 "goal_added" [(.str "goal_id", .str "g1")] none

def secondCall : Call WholeFloat :=
  sampleCall 1690000001 "todo_updated"
    [(.str "todo_id", .str "t1"), (.str "status", .str "done")] none

end
end Obase.LoopEventStore
