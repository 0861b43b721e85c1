import ClassAssembler.Hierarchy.Basic

/-!
# Platform classes

The superclasses and interfaces of common classes of the platform's library.
-/

namespace ClassAssembler

namespace ClassTable

def platformClasses : List (String × String) := [
  ("java/lang/String", "java/lang/Object"),
  ("java/lang/StringBuilder", "java/lang/AbstractStringBuilder"),
  ("java/lang/StringBuffer", "java/lang/AbstractStringBuilder"),
  ("java/lang/AbstractStringBuilder", "java/lang/Object"),
  ("java/lang/Number", "java/lang/Object"),
  ("java/lang/Integer", "java/lang/Number"),
  ("java/lang/Long", "java/lang/Number"),
  ("java/lang/Short", "java/lang/Number"),
  ("java/lang/Byte", "java/lang/Number"),
  ("java/lang/Float", "java/lang/Number"),
  ("java/lang/Double", "java/lang/Number"),
  ("java/lang/Boolean", "java/lang/Object"),
  ("java/lang/Character", "java/lang/Object"),
  ("java/lang/Class", "java/lang/Object"),
  ("java/lang/System", "java/lang/Object"),
  ("java/lang/Math", "java/lang/Object"),
  ("java/lang/Thread", "java/lang/Object"),
  ("java/lang/Enum", "java/lang/Object"),
  ("java/lang/Throwable", "java/lang/Object"),
  ("java/lang/Exception", "java/lang/Throwable"),
  ("java/lang/Error", "java/lang/Throwable"),
  ("java/lang/RuntimeException", "java/lang/Exception"),
  ("java/lang/IllegalArgumentException", "java/lang/RuntimeException"),
  ("java/lang/IllegalStateException", "java/lang/RuntimeException"),
  ("java/lang/NullPointerException", "java/lang/RuntimeException"),
  ("java/lang/ArithmeticException", "java/lang/RuntimeException"),
  ("java/lang/ClassCastException", "java/lang/RuntimeException"),
  ("java/lang/IndexOutOfBoundsException", "java/lang/RuntimeException"),
  ("java/lang/ArrayIndexOutOfBoundsException", "java/lang/IndexOutOfBoundsException"),
  ("java/lang/NumberFormatException", "java/lang/IllegalArgumentException"),
  ("java/lang/UnsupportedOperationException", "java/lang/RuntimeException"),
  ("java/lang/InterruptedException", "java/lang/Exception"),
  ("java/lang/ReflectiveOperationException", "java/lang/Exception"),
  ("java/lang/ClassNotFoundException", "java/lang/ReflectiveOperationException"),
  ("java/io/IOException", "java/lang/Exception"),
  ("java/io/FileNotFoundException", "java/io/IOException"),
  ("java/io/UncheckedIOException", "java/lang/RuntimeException"),
  ("java/io/OutputStream", "java/lang/Object"),
  ("java/io/FilterOutputStream", "java/io/OutputStream"),
  ("java/io/PrintStream", "java/io/FilterOutputStream"),
  ("java/io/InputStream", "java/lang/Object"),
  ("java/io/Reader", "java/lang/Object"),
  ("java/io/Writer", "java/lang/Object"),
  ("java/io/File", "java/lang/Object"),
  ("java/util/AbstractCollection", "java/lang/Object"),
  ("java/util/AbstractList", "java/util/AbstractCollection"),
  ("java/util/ArrayList", "java/util/AbstractList"),
  ("java/util/AbstractSequentialList", "java/util/AbstractList"),
  ("java/util/LinkedList", "java/util/AbstractSequentialList"),
  ("java/util/AbstractMap", "java/lang/Object"),
  ("java/util/HashMap", "java/util/AbstractMap"),
  ("java/util/LinkedHashMap", "java/util/HashMap"),
  ("java/util/TreeMap", "java/util/AbstractMap"),
  ("java/util/AbstractSet", "java/util/AbstractCollection"),
  ("java/util/HashSet", "java/util/AbstractSet"),
  ("java/util/TreeSet", "java/util/AbstractSet")]

def platformInterfaces : List String := [
  "java/lang/Runnable",
  "java/lang/Comparable",
  "java/lang/CharSequence",
  "java/lang/Iterable",
  "java/lang/AutoCloseable",
  "java/io/Closeable",
  "java/io/Serializable",
  "java/util/Collection",
  "java/util/List",
  "java/util/Map",
  "java/util/Set",
  "java/util/Iterator"]

def platform : ClassTable :=
  let classes : ClassTable := platformClasses.foldl
    (fun h (name, super) => h.addClass (Text.ofString name) (Text.ofString super)) {}
  platformInterfaces.foldl (fun h name => h.addInterface (Text.ofString name)) classes

end ClassTable

end ClassAssembler
