import AlxBackend.Python.Basic
import Mathlib.Data.List.AList

/-! `0x01-caching/0-basic_cache.py`: a cache with no limit over the dictionary `cache_data`
of its base class `BaseCaching`, whose file `base_caching.py` is not among the sources. Its
`get` is shared with `FIFOCache`. Every run of it answers as a plain map updated by the puts
with no `None` argument. -/

namespace AlxBackend.Caching

variable {K V : Type} [DecidableEq K]

inductive Call (K V : Type) where
  | put (key : Option K) (item : Option V)
  | get (key : Option K)
  deriving DecidableEq, Repr

/-- `get` of `BasicCache` and `FIFOCache`: `cache_data[key]` when `key` is not `None` and is
a key of `cache_data`, else `None`. -/
def cacheGet (cacheData : AList fun _ : K => V) : Option K → Option V
  | some key => cacheData.lookup key
  | none => none

structure BasicCache (K V : Type) [DecidableEq K] where
  cacheData : AList fun _ : K => V

namespace BasicCache

/-- Modelled from the spec: `BaseCaching.__init__` (in the missing `base_caching.py`) starts
`cache_data` empty. -/
def init : BasicCache K V := ⟨∅⟩

/-- `BasicCache.put`: nothing for a `None` key or item, else `cache_data[key] = item`. -/
def put (c : BasicCache K V) : Option K → Option V → BasicCache K V
  | some key, some item => ⟨c.cacheData.insert key item⟩
  | _, _ => c

/-- `BasicCache.get`. -/
def get (c : BasicCache K V) (key : Option K) : Option V :=
  cacheGet c.cacheData key

def run (c : BasicCache K V) : List (Call K V) → BasicCache K V
  | [] => c
  | .put key item :: calls => run (c.put key item) calls
  | .get _ :: calls => run c calls

end BasicCache

def mapAfter (m : K → Option V) : List (Call K V) → K → Option V
  | [] => m
  | .put (some key) (some item) :: calls => mapAfter (Function.update m key (some item)) calls
  | _ :: calls => mapAfter m calls

theorem BasicCache.get_put (c : BasicCache K V) (key : K) (item : V) :
    (fun k => (c.put (some key) (some item)).get (some k)) =
      Function.update (fun k => c.get (some k)) key (some item) := by
  funext k
  by_cases h : k = key
  · subst h
    simp [BasicCache.put, BasicCache.get, cacheGet, AList.lookup_insert]
  · simp [BasicCache.put, BasicCache.get, cacheGet, AList.lookup_insert_ne h, h]

/-- `BasicCache` refines a map: after any run, `get(k)` is what the map of the puts holds. -/
theorem BasicCache.get_run (calls : List (Call K V)) :
    ∀ (c : BasicCache K V) (k : K),
      (c.run calls).get (some k) = mapAfter (fun k => c.get (some k)) calls k := by
  induction calls with
  | nil => intro c k; rfl
  | cons call calls ih =>
    intro c k
    rcases call with ⟨_ | key, _ | item⟩ | key
    · exact ih c k
    · exact ih c k
    · exact ih c k
    · rw [BasicCache.run, mapAfter, ih, BasicCache.get_put]
    · exact ih c k

end AlxBackend.Caching
