import CliMetadata.Image.Basic
import CliMetadata.Image.Layout

/-!
Opening images. The headers are read as `Image/Layout` says; that reader and what is here are the
outer layer of images, and the results on images hold for headers of any kind.
-/

namespace CliMetadata

namespace Image

def ofBytes (data : Bytes) : Except Fault Image := load ImageLayout.ofBytes? data

/-- The image of a file, of which the contents are absent if it cannot be read. -/
def ofFile (contents : Option Bytes) : Except Fault Image :=
  match contents with
  | none => .error .unreadableFile
  | some data => ofBytes data

end Image

end CliMetadata
