import Mathlib.Logic.Function.Basic
import Oasys.Util.Cache

/-!
# ExternalHandle

The `Handle` and the `ExternalHandle` of `util/Cache.h`. A `Cache*` is null or the name of
one of the caches; the members of `Cache` that a handle calls use the node its iterator
names and nothing else of the cache, but calling one through a null pointer dereferences
it.
-/

namespace Oasys

variable {ι Key Val H : Type}

/-- A `Handle`: `none` where `cache_` is null. -/
abbrev Handle (ι : Type) := Option (ι × LRUList.Iterator)

namespace Handle

def valid (h : Handle ι) : Bool := h.isSome

variable [DecidableEq ι]

def pin (caches : ι → Cache Key Val H) (h : Handle ι) :
    Except Fault (Int × (ι → Cache Key Val H)) :=
  match h with
  | none => throw .nullDeref
  | some (cache_, itr_) => do
    let (count, c) ← (caches cache_).pinHandle itr_
    pure (count, Function.update caches cache_ c)

/-- `unpin()`, which makes the handle invalid where the pin count gets to 0. -/
def unpin (caches : ι → Cache Key Val H) (h : Handle ι) :
    Except Fault (Int × Handle ι × (ι → Cache Key Val H)) :=
  match h with
  | none => throw .nullDeref
  | some (cache_, itr_) => do
    let (count, c) ← (caches cache_).unpinHandle itr_
    let h := if count = 0 then none else h
    pure (count, h, Function.update caches cache_ c)

end Handle

namespace ExternalHandle

/-- The default constructor. -/
def new : Handle ι := none

variable [DecidableEq ι]

/-- `ExternalHandle(cache_handle)`, and the copy constructor, which is given the
    `cache_handle_` of the other handle. -/
def create (caches : ι → Cache Key Val H) (cache_handle : Handle ι) :
    Except Fault (Handle ι × (ι → Cache Key Val H)) := do
  let cache_handle_ := cache_handle
  let (_, caches) ← cache_handle_.pin caches
  pure (cache_handle_, caches)

/-- A handle that is valid is unpinned. -/
def release (caches : ι → Cache Key Val H) (h : Handle ι) :
    Except Fault (ι → Cache Key Val H) :=
  if h.valid then (·.2.2) <$> h.unpin caches else pure caches

/-- `operator=`, `self` telling whether `&other == this`. -/
def assign (caches : ι → Cache Key Val H) (self : Bool) (cache_handle_ other : Handle ι) :
    Except Fault (Handle ι × (ι → Cache Key Val H)) :=
  if self then pure (cache_handle_, caches)
  else do
    let old_handle := cache_handle_
    let cache_handle_ := other
    let (_, caches) ← cache_handle_.pin caches
    let caches ← release caches old_handle
    pure (cache_handle_, caches)

def destroy (caches : ι → Cache Key Val H) (cache_handle_ : Handle ι) :
    Except Fault (ι → Cache Key Val H) :=
  release caches cache_handle_

end ExternalHandle

end Oasys
