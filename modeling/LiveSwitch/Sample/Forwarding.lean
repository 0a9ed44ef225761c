import LiveSwitch.Document.Builder

/-!
# A forwarding program

The ingress pipeline starts at `node_2`, which sends packets with an `ipv4` header to the
forwarding table; its hits are forwarded and its misses dropped.  `node_3` sends TCP to
the table that marks the type of service and everything else to `node_4`, which looks for
UDP and leads nowhere.  The egress pipeline is one table without effect.
-/

namespace LiveSwitch.Sample.Forwarding

open Operand

/-- The table that forwards. -/
def lpmTable : String := "MyIngress.ipv4_lpm"

/-- The table that marks the type of service. -/
def markTable : String := "MyIngress.mark_tos"

/-- The action that forwards to a port. -/
def forwardAction : String := "MyIngress.forward"

/-- The action that drops. -/
def dropAction : String := "MyIngress.drop"

/-- The action that marks the type of service. -/
def markAction : String := "MyIngress.set_tos"

/-- The action without effect. -/
def noAction : String := "NoAction"

/-- The ingress pipeline. -/
def ingress : PipelineBuilder :=
  { name := "ingress", id := 0, init? := some "node_2" : PipelineBuilder }
    |>.table lpmTable 0 [("ipv4", "dstAddr")]
      [(forwardAction, 2), (dropAction, 1), (noAction, 0)]
      [(forwardAction, some "node_3"), (dropAction, none), (noAction, some "node_3")]
      (some "node_3") (some 1)
    |>.table markTable 1 [] [(markAction, 3)] [(markAction, none)] none (some 3)
    |>.conditional "node_2" 0 (valid "ipv4") (some lpmTable) none
    |>.conditional "node_3" 1 (fieldEquals "ipv4" "protocol" 0x06) (some markTable)
      (some "node_4")
    |>.conditional "node_4" 2 (fieldEquals "ipv4" "protocol" 0x11) none none

/-- The egress pipeline. -/
def egress : PipelineBuilder :=
  { name := "egress", id := 1, init? := some "MyEgress.noop" : PipelineBuilder }
    |>.table "MyEgress.noop" 2 [] [(noAction, 0)] [(noAction, none)] none (some 0)

/-- The document of the program. -/
def document : Json.Value :=
  DocumentBuilder.empty
    |>.headerType "ipv4_t" [("srcAddr", 32), ("dstAddr", 32), ("protocol", 8), ("diffserv", 8)]
    |>.headerType "meta_t" [("egress_spec", 9)]
    |>.header "ipv4" 0 "ipv4_t"
    |>.header "meta" 1 "meta_t"
    |>.array "flow_counter" 0 16 32
    |>.action noAction 0 [] []
    |>.action dropAction 1 [] [primitive "mark_to_drop" []]
    |>.action forwardAction 2 [("port", 9)]
      [primitive "assign" [field "meta" "egress_spec", data 0]]
    |>.action markAction 3 [] [primitive "assign" [field "ipv4" "diffserv", constant 0x10]]
    |>.pipeline ingress
    |>.pipeline egress
    |>.set "parsers" (.array [objectOf [("name", .string "parser"), ("id", .ofNat 0),
        ("init_state", .string "start"), ("parse_states", .array [])]])
    |>.set "deparsers" (.array [objectOf [("name", .string "deparser"), ("id", .ofNat 0),
        ("order", .array [.string "ipv4"])]])
    |>.document

end LiveSwitch.Sample.Forwarding
