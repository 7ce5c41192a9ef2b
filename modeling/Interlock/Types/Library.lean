import Interlock.Types.Kind
import Interlock.Text.Pieces
import Interlock.Ordered.Basic

/-! Library types that an analysed program uses without declaring them, for both analysed
languages. All look-ups take the simple name. -/

namespace Interlock.Types

open Interlock.Text

/-- Names of primitive types and of their wrappers. -/
def primitiveNames : List (Primitive × List String) :=
  [(.int,
    ["int", "Integer", "long", "Long", "short", "Short", "byte", "Byte", "sbyte", "uint", "ulong",
     "ushort", "nint", "Int16", "Int32", "Int64", "UInt32", "UInt64", "BigInteger"]),
   (.float,
    ["float", "Float", "double", "Double", "decimal", "Decimal", "Single", "BigDecimal"]),
   (.char,
    ["char", "Character", "Char"]),
   (.string,
    ["String", "string", "CharSequence"]),
   (.bool,
    ["boolean", "Boolean", "bool"]),
   (.null,
    ["null"])]

/-- The primitive type that a name stands for. -/
def primitiveNamed? (name : String) : Option Primitive :=
  (primitiveNames.find? fun row => row.2.contains name).map (·.1)

/-- Types that are deliberately not followed. -/
def untrackedNames : List String :=
  ["Object", "object", "Exception", "RuntimeException", "Throwable", "Error", "Class", "Type",
   "Void", "Iterator", "Iterable", "Collection", "Comparable", "Comparator", "IEnumerable",
   "IEnumerator", "IDisposable", "var", "dynamic"]

/-- Library types by the kind of their calls. -/
def kindNames : List (TypeKind × List String) :=
  [(.set,
    ["Set", "HashSet", "TreeSet", "LinkedHashSet", "SortedSet", "NavigableSet", "EnumSet",
     "CopyOnWriteArraySet", "ConcurrentSkipListSet", "ISet"]),
   (.list,
    ["List", "ArrayList", "LinkedList", "Vector", "Queue", "Deque", "ArrayDeque", "BlockingQueue",
     "LinkedBlockingQueue", "LinkedBlockingDeque", "ArrayBlockingQueue", "ConcurrentLinkedQueue",
     "CopyOnWriteArrayList", "IList", "ICollection", "IReadOnlyList", "ConcurrentQueue",
     "ConcurrentBag", "BlockingCollection"]),
   (.map,
    ["Map", "HashMap", "TreeMap", "LinkedHashMap", "ConcurrentHashMap", "ConcurrentMap",
     "SortedMap", "NavigableMap", "Hashtable", "WeakHashMap", "IdentityHashMap", "EnumMap",
     "Dictionary", "IDictionary", "ConcurrentDictionary", "SortedDictionary",
     "IReadOnlyDictionary"]),
   (.stack,
    ["Stack", "ConcurrentStack"]),
   (.priorityQueue,
    ["PriorityQueue", "PriorityBlockingQueue"]),
   (.reference,
    ["AtomicReference", "WeakReference", "SoftReference", "Optional", "ThreadLocal", "Lazy",
     "Future", "CompletableFuture", "Task"]),
   (.lock,
    ["Lock", "ReentrantLock", "ReadWriteLock", "ReentrantReadWriteLock", "ReadLock", "WriteLock",
     "StampedLock", "ReaderWriterLockSlim", "ReaderWriterLock", "Mutex", "Semaphore",
     "SemaphoreSlim", "SpinLock"]),
   (.script,
    ["Invocable", "ScriptEngine", "ScriptObjectMirror"]),
   (.string,
    ["StringBuilder", "StringBuffer"]),
   (.other,
    ["Thread", "Random", "AtomicInteger", "AtomicLong", "AtomicBoolean"])]

/-- The kind of a library type, `none` for every other name. -/
def kindNamed (name : String) : TypeKind :=
  match kindNames.find? fun row => row.2.contains name with
  | some row => row.1
  | none => .none

/-- What a call on a known class returns. -/
inductive ReturnRule where
  | value (p : Primitive)
  /-- The type of the receiver, for calls that are chained. -/
  | receiver
  | unknown
  deriving DecidableEq, Repr

/-- A library class described by the return types of its methods alone. -/
structure KnownClass where
  name : String
  otherwise : ReturnRule
  methods : List (String × ReturnRule)

def KnownClass.returnOf (c : KnownClass) (method : String) : ReturnRule :=
  match c.methods.find? fun m => m.1 == method with
  | some m => m.2
  | none => c.otherwise

def knownClasses : List KnownClass :=
  [⟨"String", .unknown,
      [("length", .value .int), ("Length", .value .int), ("charAt", .value .char),
       ("indexOf", .value .int), ("IndexOf", .value .int), ("lastIndexOf", .value .int),
       ("compareTo", .value .int), ("CompareTo", .value .int), ("hashCode", .value .int),
       ("codePointAt", .value .int), ("equals", .value .bool), ("Equals", .value .bool),
       ("equalsIgnoreCase", .value .bool), ("isEmpty", .value .bool), ("isBlank", .value .bool),
       ("contains", .value .bool), ("Contains", .value .bool), ("startsWith", .value .bool),
       ("StartsWith", .value .bool), ("endsWith", .value .bool), ("EndsWith", .value .bool),
       ("matches", .value .bool), ("substring", .value .string), ("Substring", .value .string),
       ("trim", .value .string), ("Trim", .value .string), ("strip", .value .string),
       ("toUpperCase", .value .string), ("ToUpper", .value .string),
       ("toLowerCase", .value .string), ("ToLower", .value .string), ("replace", .value .string),
       ("Replace", .value .string), ("concat", .value .string), ("format", .value .string),
       ("Format", .value .string), ("join", .value .string), ("Join", .value .string),
       ("repeat", .value .string), ("intern", .value .string), ("valueOf", .value .string)]⟩,
   ⟨"Integer", .value .int,
      [("toString", .value .string), ("equals", .value .bool), ("Equals", .value .bool)]⟩,
   ⟨"StringBuilder", .unknown,
      [("append", .receiver), ("Append", .receiver), ("AppendLine", .receiver),
       ("insert", .receiver), ("Insert", .receiver), ("reverse", .receiver),
       ("length", .value .int), ("Length", .value .int), ("charAt", .value .char),
       ("toString", .value .string), ("ToString", .value .string)]⟩,
   ⟨"StringBuffer", .unknown,
      [("append", .receiver), ("insert", .receiver), ("reverse", .receiver),
       ("length", .value .int), ("charAt", .value .char), ("toString", .value .string)]⟩,
   ⟨"Thread", .unknown,
      [("getName", .value .string), ("isAlive", .value .bool), ("isInterrupted", .value .bool),
       ("interrupted", .value .bool), ("isDaemon", .value .bool), ("getId", .value .int),
       ("getPriority", .value .int)]⟩,
   ⟨"Random", .value .int,
      [("nextDouble", .value .float), ("NextDouble", .value .float), ("nextFloat", .value .float),
       ("nextGaussian", .value .float), ("nextBoolean", .value .bool)]⟩,
   ⟨"AtomicInteger", .value .int,
      [("compareAndSet", .value .bool), ("toString", .value .string)]⟩,
   ⟨"AtomicLong", .value .int,
      [("compareAndSet", .value .bool), ("toString", .value .string)]⟩,
   ⟨"AtomicBoolean", .value .bool,
      [("toString", .value .string)]⟩]

def knownClass? (name : String) : Option KnownClass := knownClasses.find? fun c => c.name == name

/-- Names that have a type identity of their own from the start, in ascending order. Lock and
script types share the identity of their primitive. -/
def builtinNames : List String :=
  let byKind := kindNames.flatMap fun row => if row.1 = .lock || row.1 = .script then [] else row.2
  let byClass := (knownClasses.map (·.name)).filter fun n => (primitiveNamed? n).isNone
  Ordered.ofList (byKind ++ byClass)

/-- A declared type with this simple name holds a lock. -/
def isLockName (simpleName : String) : Bool :=
  kindNamed simpleName == .lock || contains "Lock" simpleName

/-- Lock types tell by their name whether they serve readers. -/
def namesRead (typeText : String) : Bool := contains "Read" typeText

/-- Lock types tell by their name whether they serve writers. -/
def namesWrite (typeText : String) : Bool := contains "Write" typeText

end Interlock.Types
