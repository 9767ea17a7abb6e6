import PvsIndex.Lsp.Client

/-! What the server takes from elsewhere. -/

namespace PvsIndex

/-- How URIs are read, and what a client may tell about itself. -/
class Protocol where
  uri? : String → Option Uri
  isClient : Json → Bool

/-- URIs in normal spelling, and the clients of version 3.15. -/
instance Protocol.standard : Protocol where
  uri? text := (Uri.ofText text).toOption
  isClient := Client.initialization.accepts

end PvsIndex
