import CliMetadata.Signature.Decoding
import CliMetadata.Signature.Encoder
import CliMetadata.Signature.Encoding
import CliMetadata.Signature.Outline

/-!
Sequences of signatures. Types and methods stand one behind the other without anything between
them. The bytes do not tell which of the two comes next, so that a reader has to be told.
-/

namespace CliMetadata

inductive ItemKind where
  | type
  | method
deriving DecidableEq, Repr

inductive SignatureItem where
  | type (signature : TypeSignature)
  | method (signature : MethodSignature)

namespace SignatureItem

def kind : SignatureItem → ItemKind
  | .type _ => .type
  | .method _ => .method

def encode : SignatureItem → Except EncodingFault Bytes
  | .type signature => signature.encode
  | .method signature => signature.encode

def outline : SignatureItem → String
  | .type signature => signature.outline
  | .method signature => signature.outline

/-- Appends the item to what an encoder has written so far. -/
def append : SignatureItem → Append Unit
  | .type signature => Append.type signature
  | .method signature => Append.method signature

/-- The bytes written after each of the items, up to the first that has no encoding. -/
def appendEach (written : Bytes) : List SignatureItem → List (Except EncodingFault Bytes)
  | [] => []
  | item :: rest =>
    match item.append.run? { data := written } with
    | .ok buffer => .ok buffer.data :: appendEach buffer.data rest
    | .error fault => [.error fault]

/-- What one encoder has written after all the items. -/
def encodeAll (items : List SignatureItem) : Except EncodingFault Bytes :=
  ((forM items append).run? { data := [] }).map Buffer.data

end SignatureItem

namespace Read

def item (resolver : Resolver) : ItemKind → Read SignatureItem
  | .type => do return .type (← type resolver)
  | .method => do return .method (← method resolver)

end Read

end CliMetadata
