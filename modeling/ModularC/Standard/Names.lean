/-!
Names that the C standard library provides: the type names its headers declare, and the header
that declares each identifier header inference knows.
-/

namespace ModularC.Standard

/-- Type names the standard headers declare, known to the parser unless it is told otherwise. -/
def typeNames : List String :=
  ["FILE", "fpos_t", "size_t", "ptrdiff_t", "wchar_t", "va_list", "bool",
    "int8_t", "int16_t", "int32_t", "int64_t",
    "uint8_t", "uint16_t", "uint32_t", "uint64_t",
    "intptr_t", "uintptr_t", "intmax_t", "uintmax_t",
    "time_t", "clock_t", "div_t", "ldiv_t"]

/-- Each standard header with the identifiers it declares. No identifier is listed twice. -/
def headers : List (String × List String) := [
  ("assert.h",
    ["assert"]),
  ("ctype.h",
    ["isalnum", "isalpha", "iscntrl", "isdigit", "isgraph", "islower", "isprint", "ispunct",
      "isspace", "isupper", "isxdigit", "tolower", "toupper"]),
  ("errno.h",
    ["errno", "EDOM", "ERANGE", "EINVAL", "ENOENT", "ENOMEM"]),
  ("limits.h",
    ["CHAR_BIT", "CHAR_MAX", "CHAR_MIN", "SCHAR_MAX", "SCHAR_MIN", "UCHAR_MAX", "SHRT_MAX",
      "SHRT_MIN", "USHRT_MAX", "INT_MAX", "INT_MIN", "UINT_MAX", "LONG_MAX", "LONG_MIN",
      "ULONG_MAX"]),
  ("math.h",
    ["acos", "asin", "atan", "atan2", "ceil", "cos", "cosh", "exp", "fabs", "floor", "fmod",
      "frexp", "ldexp", "log", "log10", "modf", "pow", "sin", "sinh", "sqrt", "tan", "tanh",
      "HUGE_VAL"]),
  ("stdarg.h",
    ["va_list", "va_start", "va_arg", "va_end", "va_copy"]),
  ("stdbool.h",
    ["bool", "true", "false"]),
  ("stddef.h",
    ["size_t", "ptrdiff_t", "wchar_t", "NULL", "offsetof"]),
  ("stdint.h",
    ["int8_t", "int16_t", "int32_t", "int64_t", "uint8_t", "uint16_t", "uint32_t", "uint64_t",
      "intptr_t", "uintptr_t", "intmax_t", "uintmax_t", "INT8_MAX", "INT16_MAX", "INT32_MAX",
      "INT64_MAX", "UINT8_MAX", "UINT16_MAX", "UINT32_MAX", "UINT64_MAX", "SIZE_MAX"]),
  ("stdio.h",
    ["FILE", "fpos_t", "EOF", "BUFSIZ", "stdin", "stdout", "stderr", "printf", "fprintf",
      "sprintf", "snprintf", "vprintf", "vfprintf", "vsprintf", "vsnprintf", "scanf", "fscanf",
      "sscanf", "fopen", "freopen", "fclose", "fflush", "fread", "fwrite", "fgetc", "fgets",
      "fputc", "fputs", "getc", "getchar", "putc", "putchar", "puts", "ungetc", "fseek", "ftell",
      "rewind", "feof", "ferror", "perror", "remove", "rename", "SEEK_SET", "SEEK_CUR", "SEEK_END"]),
  ("stdlib.h",
    ["malloc", "calloc", "realloc", "free", "abort", "exit", "atexit", "getenv", "system", "atoi",
      "atol", "atof", "strtol", "strtoul", "strtod", "abs", "labs", "div", "ldiv", "div_t",
      "ldiv_t", "rand", "srand", "qsort", "bsearch", "EXIT_SUCCESS", "EXIT_FAILURE", "RAND_MAX"]),
  ("string.h",
    ["memcpy", "memmove", "memset", "memcmp", "memchr", "strcpy", "strncpy", "strcat", "strncat",
      "strcmp", "strncmp", "strchr", "strrchr", "strstr", "strlen", "strerror", "strtok", "strspn",
      "strcspn", "strpbrk"]),
  ("time.h",
    ["time_t", "clock_t", "time", "clock", "difftime", "mktime", "localtime", "gmtime", "strftime",
      "CLOCKS_PER_SEC"])]

/-- The standard header that declares `name`, if any. -/
def headerOf? (name : String) : Option String :=
  (headers.find? (fun entry => entry.2.contains name)).map (·.1)

end ModularC.Standard
