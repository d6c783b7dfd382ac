import Refscript.Machine.Native

/-!
# Refscript.Machine.Introspection

Host functions through which a program can look at how it is called: the receiver's type, the
arguments as they come, a call passed on, and a failure.
-/

namespace Refscript
namespace Introspection

/-- Names the receiver's type; null without a receiver. -/
def whoami (s : Store) (this : Option Value) : HostReply :=
  .value (match this with
    | some v => .str (s.typeName v)
    | none => .null)

/-- Calls the first argument with the others, keeping the receiver. -/
def callOn (this : Option Value) : List Value → HostReply
  | callee :: args => .call ⟨callee, this, args, none⟩
  | [] => .fault (.refused (.other "call needs a callee"))

def host : Host := fun name s this args =>
  match name with
  | "whoami" => whoami s this
  | "args" => .list args
  | "call" => callOn this args
  | "fail" => .fault (.refused (.other "failed on purpose"))
  | _ => .value .null

end Introspection
end Refscript
