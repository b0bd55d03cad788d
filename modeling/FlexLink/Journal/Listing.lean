import FlexLink.Digest.HalfMd4
import FlexLink.Text.Utf8

/-! # The order of a directory

A directory keeps an index of its files by a digest of their names and lists them in the order of
that index, whatever the order they were made in. -/
set_option autoImplicit false
namespace FlexLink.Listing

structure Place where
  major : UInt32
  minor : UInt32
deriving DecidableEq

/-- The lowest bit of the major part is not used. -/
def Place.ofName (name : String) : Place :=
  let s := HalfMd4.digest (Utf8.encode name)
  ⟨s.b >>> 1, s.c⟩

def Place.atMost (p q : Place) : Bool :=
  decide (p.major < q.major) || p.major == q.major && decide (p.minor ≤ q.minor)

def sorted {α : Type} (files : List (String × α)) : List (String × α) :=
  ((files.map fun file => (Place.ofName file.1, file)).mergeSort fun x y =>
    x.1.atMost y.1).map Prod.snd

end FlexLink.Listing
