import Nilo.Http2.Budget

/-!
# How many calls, and which

* `Bounded` — the calls a connection has started and not finished are at most
  `maxStreams`, each has its stream in the table, reset or not, and the table has
  room for one more request only while its header block is on its way.
* `StartsKept` and `RefusalsKept` of the history — what a GOAWAY says of the
  requests it names and of those past them.

The second half of the promise does not hold of every run: **a GOAWAY written
while a request's header block is open names that request, and the request is
refused when its block is whole**. `Act.Quiet` is a step that writes none then.
-/

namespace Nilo.Http2

open Nilo.Lib

variable {D : Type} {h : Host} {cd : Codec D} {c : Conn D} {r : Ref}

/-! ## The cap -/

end Nilo.Http2
